import Mathlib.Data.Finset.Range
import Mathlib.Data.Finset.Card
import Mathlib.Data.List.Nodup
import Mathlib.Data.List.Basic

/-!
# Singly linked nodes in a heap

* `Node`, `Heap` : nodes with an item and a link, allocated one after another;
* `Seg h s l t` : the nodes `l` are linked from `s` on and end with the link `t`
  (`Seg.append_iff`, `Seg.congr`, `Seg.relink`);
* `lastAddress` : the address of the last node of a segment;
* `Moves` : what a computation that owns some nodes leaves alone.
-/

namespace ZkOs.LinkedHeap

variable {α : Type*}

structure Node (α : Type*) where
  item : α
  previous : Option Nat

/-- Addresses are handed out in order and stay allocated. -/
structure Heap (α : Type*) where
  node : Nat → Option (Node α)
  size : Nat
  lt_size : ∀ a n, node a = some n → a < size

namespace Heap

def empty : Heap α := ⟨fun _ => none, 0, nofun⟩

/-- A node at a new address, which is `h.size`. -/
def alloc (h : Heap α) (n : Node α) : Heap α where
  node a := if a = h.size then some n else h.node a
  size := h.size + 1
  lt_size a m hm := by
    split at hm
    · omega
    · exact Nat.lt_succ_of_lt (h.lt_size a m hm)

def modify (h : Heap α) (a : Nat) (f : Node α → Node α) : Heap α where
  node b := if b = a then (h.node a).map f else h.node b
  size := h.size
  lt_size b m hm := by
    split at hm
    · rename_i hb
      obtain ⟨n, hn, -⟩ := Option.map_eq_some_iff.mp hm
      exact hb ▸ h.lt_size a n hn
    · exact h.lt_size b m hm

@[simp] theorem alloc_size (h : Heap α) (n : Node α) : (h.alloc n).size = h.size + 1 := rfl
@[simp] theorem modify_size (h : Heap α) (a : Nat) (f : Node α → Node α) : (h.modify a f).size = h.size := rfl

theorem alloc_self (h : Heap α) (n : Node α) : (h.alloc n).node h.size = some n := if_pos rfl

variable {h : Heap α} {a : Nat}

theorem alloc_of_lt (ha : a < h.size) (n : Node α) : (h.alloc n).node a = h.node a :=
  if_neg (Nat.ne_of_lt ha)

theorem modify_self {n : Node α} (ha : h.node a = some n) (f : Node α → Node α) :
    (h.modify a f).node a = some (f n) := by
  show (if a = a then (h.node a).map f else h.node a) = _
  rw [if_pos rfl, ha, Option.map_some]

theorem modify_of_ne {b : Nat} (hb : b ≠ a) (f : Node α → Node α) :
    (h.modify a f).node b = h.node b := if_neg hb

end Heap

/-! ## Segments -/

/-- The nodes `l`, each given by its address and its item, are linked in this order from `s` on; the
last of them links to `t`. -/
def Seg (h : Heap α) : Option Nat → List (Nat × α) → Option Nat → Prop
  | s, [], t => s = t
  | s, (a, x) :: l, t => s = some a ∧ ∃ p, h.node a = some ⟨x, p⟩ ∧ Seg h p l t

def addresses (l : List (Nat × α)) : List Nat := l.map Prod.fst

@[simp] theorem addresses_nil : addresses ([] : List (Nat × α)) = [] := rfl
@[simp] theorem addresses_cons (x : Nat × α) (l : List (Nat × α)) : addresses (x :: l) = x.1 :: addresses l := rfl
@[simp] theorem addresses_append (l l' : List (Nat × α)) : addresses (l ++ l') = addresses l ++ addresses l' :=
  List.map_append

/-- The address of the last node, or `d` without any. -/
def lastAddress (d : Nat) : List (Nat × α) → Nat
  | [] => d
  | (a, _) :: l => lastAddress a l

def lastAddress? : List (Nat × α) → Option Nat
  | [] => none
  | x :: l => some (lastAddress x.1 l)

theorem lastAddress_append (d : Nat) (l l' : List (Nat × α)) :
    lastAddress d (l ++ l') = lastAddress (lastAddress d l) l' := by
  induction l generalizing d with
  | nil => rfl
  | cons x l ih => exact ih x.1

variable {l : List (Nat × α)}

theorem lastAddress_mem (d : Nat) (hl : l ≠ []) : lastAddress d l ∈ addresses l := by
  induction l generalizing d with
  | nil => exact absurd rfl hl
  | cons x l ih =>
    rcases l with _ | ⟨y, l⟩
    · exact List.mem_cons_self
    · exact List.mem_cons_of_mem _ (ih x.1 (List.cons_ne_nil _ _))

theorem exists_concat (x : Nat × α) (l : List (Nat × α)) :
    ∃ l' y, x :: l = l' ++ [(lastAddress x.1 l, y)] := by
  induction l generalizing x with
  | nil => exact ⟨[], x.2, rfl⟩
  | cons z l ih =>
    obtain ⟨l', y, hl⟩ := ih z
    exact ⟨x :: l', y, congrArg (x :: ·) hl⟩

theorem not_mem_of_nodup_concat {a : Nat} {x : α} (h : (addresses (l ++ [(a, x)])).Nodup) :
    a ∉ addresses l := by
  rw [addresses_append] at h
  intro ha
  exact (List.nodup_append.mp h).2.2 a ha a (List.mem_singleton.mpr rfl) rfl

namespace Seg

variable {h h' : Heap α} {s t : Option Nat} {l l' : List (Nat × α)}

theorem append_iff : Seg h s (l ++ l') t ↔ ∃ m, Seg h s l m ∧ Seg h m l' t := by
  induction l generalizing s with
  | nil =>
    constructor
    · intro hs
      exact ⟨s, rfl, hs⟩
    · rintro ⟨m, rfl, hs⟩
      exact hs
  | cons x l ih =>
    constructor
    · rintro ⟨hs, p, hp, hrest⟩
      obtain ⟨m, hl, hl'⟩ := ih.mp hrest
      exact ⟨m, ⟨hs, p, hp, hl⟩, hl'⟩
    · rintro ⟨m, ⟨hs, p, hp, hl⟩, hl'⟩
      exact ⟨hs, p, hp, ih.mpr ⟨m, hl, hl'⟩⟩

theorem congr (hl : Seg h s l t) (hh : ∀ a ∈ addresses l, h'.node a = h.node a) : Seg h' s l t := by
  induction l generalizing s with
  | nil => exact hl
  | cons x l ih =>
    obtain ⟨hs, p, hp, hrest⟩ := hl
    refine ⟨hs, p, ?_, ih hrest fun a ha => hh a (List.mem_cons_of_mem _ ha)⟩
    rw [hh x.1 List.mem_cons_self, hp]

variable {x : Nat × α} {a : Nat}

theorem node_of_mem (hl : Seg h s l t) (hx : x ∈ l) : ∃ p, h.node x.1 = some ⟨x.2, p⟩ := by
  induction l generalizing s with
  | nil => cases hx
  | cons y l ih =>
    obtain ⟨-, p, hp, hrest⟩ := hl
    rcases List.mem_cons.mp hx with rfl | hx
    · exact ⟨p, hp⟩
    · exact ih hrest hx

theorem lt_size (hl : Seg h s l t) (ha : a ∈ addresses l) : a < h.size := by
  obtain ⟨x, hx, rfl⟩ := List.mem_map.mp ha
  obtain ⟨p, hp⟩ := hl.node_of_mem hx
  exact h.lt_size _ _ hp

/-- A walk along a segment of distinct nodes is no longer than the heap. -/
theorem length_le (hl : Seg h s l t) (hd : (addresses l).Nodup) : l.length ≤ h.size := by
  have hsub : (addresses l).toFinset ⊆ Finset.range h.size := by
    intro a ha
    exact Finset.mem_range.mpr (hl.lt_size (List.mem_toFinset.mp ha))
  have hcard := Finset.card_le_card hsub
  rwa [List.toFinset_card_of_nodup hd, Finset.card_range, addresses, List.length_map] at hcard

theorem modify_of_not_mem (hl : Seg h s l t) (ha : a ∉ addresses l) (f : Node α → Node α) :
    Seg (h.modify a f) s l t := by
  refine hl.congr fun b hb => Heap.modify_of_ne ?_ f
  rintro rfl
  exact ha hb

theorem alloc (hl : Seg h s l t) (n : Node α) : Seg (h.alloc n) s l t :=
  hl.congr fun _ ha => Heap.alloc_of_lt (hl.lt_size ha) n

theorem last_node (hl : Seg h s (x :: l) t) : ∃ y, h.node (lastAddress x.1 l) = some ⟨y, t⟩ := by
  obtain ⟨l', y, hxl⟩ := exists_concat x l
  rw [hxl] at hl
  obtain ⟨_, -, -, p, hp, rfl⟩ := append_iff.mp hl
  exact ⟨y, hp⟩

theorem relink (hl : Seg h s (x :: l) t) (hd : (addresses (x :: l)).Nodup) (t' : Option Nat) :
    Seg (h.modify (lastAddress x.1 l) fun n => { n with previous := t' }) s (x :: l) t' := by
  obtain ⟨l', y, hxl⟩ := exists_concat x l
  rw [hxl] at hl hd ⊢
  obtain ⟨m, hl, hm, p, hp, -⟩ := append_iff.mp hl
  exact append_iff.mpr ⟨m, hl.modify_of_not_mem (not_mem_of_nodup_concat hd) _, hm, t', Heap.modify_self hp _, rfl⟩

theorem start_eq (hl : Seg h s (x :: l) t) : s = some x.1 := hl.1

end Seg

/-! ## Ownership -/

/-- From `h` to `h'` only the nodes `own` are changed; those owned afterwards are old ones or new to the
heap. -/
structure Moves (h h' : Heap α) (own own' : List Nat) : Prop where
  size_le : h.size ≤ h'.size
  unchanged : ∀ a < h.size, a ∉ own → h'.node a = h.node a
  owned : ∀ a ∈ own', a ∈ own ∨ h.size ≤ a

namespace Moves

variable {h h' h'' : Heap α} {own own' own'' : List Nat}

theorem refl (h : Heap α) (own : List Nat) : Moves h h own own :=
  ⟨Nat.le_refl _, fun _ _ _ => rfl, fun _ ha => .inl ha⟩

theorem trans (hm : Moves h h' own own') (hm' : Moves h' h'' own' own'') : Moves h h'' own own'' := by
  refine ⟨hm.size_le.trans hm'.size_le, ?_, ?_⟩
  · intro a ha hown
    have hown' : a ∉ own' := fun h' => (hm.owned a h').elim hown fun hle => Nat.not_lt.mpr hle ha
    rw [hm'.unchanged a (ha.trans_le hm.size_le) hown', hm.unchanged a ha hown]
  · intro a ha
    rcases hm'.owned a ha with h' | hle
    · exact hm.owned a h'
    · exact .inr (hm.size_le.trans hle)

theorem modify {a : Nat} (ha : a ∈ own) (f : Node α → Node α) : Moves h (h.modify a f) own own := by
  refine ⟨Nat.le_refl _, fun b _ hb => Heap.modify_of_ne ?_ f, fun _ hb => .inl hb⟩
  rintro rfl
  exact hb ha

theorem alloc (h : Heap α) (n : Node α) (own : List Nat) : Moves h (h.alloc n) own (h.size :: own) := by
  refine ⟨Nat.le_succ _, fun b hb _ => Heap.alloc_of_lt hb n, fun b hb => ?_⟩
  rcases List.mem_cons.mp hb with rfl | hb
  · exact .inr (Nat.le_refl _)
  · exact .inl hb

theorem mono (hm : Moves h h' own own') {all all' : List Nat} (hown : ∀ a ∈ own, a ∈ all)
    (hall : ∀ a ∈ all', a ∈ own' ∨ a ∈ all) : Moves h h' all all' := by
  refine ⟨hm.size_le, fun a ha hnot => hm.unchanged a ha fun h' => hnot (hown a h'), fun a ha => ?_⟩
  rcases hall a ha with ha | ha
  · exact (hm.owned a ha).imp_left (hown a)
  · exact .inl ha

theorem seg (hm : Moves h h' own own') {s t : Option Nat} {l : List (Nat × α)} (hl : Seg h s l t)
    (hdisj : ∀ a ∈ addresses l, a ∉ own) : Seg h' s l t :=
  hl.congr fun a ha => hm.unchanged a (hl.lt_size ha) (hdisj a ha)

end Moves

end ZkOs.LinkedHeap
