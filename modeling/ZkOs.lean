import ZkOs.Modexp.Soundness
import ZkOs.Tx.Malleability
import ZkOs.Exec.Resources
import ZkOs.Bootloader.GasUsed
import ZkOs.Bootloader.KeyCharges
import ZkOs.Bootloader.FinishTx
import ZkOs.Bootloader.RefundRecipient
import ZkOs.Tx.AbiCanonical
import ZkOs.Tx.RlpCanonical
import ZkOs.Tx.BufferSafe
import ZkOs.State.Preimages
import ZkOs.State.LogCounters
import ZkOs.State.LogEntries
import ZkOs.Evm.Deployed
import ZkOs.Bootloader.Withdrawal
import ZkOs.Batch.SingleBlock
import ZkOs.Batch.PriorityOps
import ZkOs.Tree.Soundness
import ZkOs.Tree.Refinement
import ZkOs.Mpt.Reads
import ZkOs.Mpt.Nibbles
import ZkOs.Evm.Arithmetic
import ZkOs.Batch.LogsRoot
import ZkOs.Evm.Heap
import ZkOs.Batch.BlobPolynomial
import ZkOs.Oracle.Csr
