import Classzz.Common.Types

/-!
# Logs, receipts and transactions

The parts of `types.Log`, `types.Receipt` and `types.Transaction` that the
modelled code reads. A transaction keeps its destination, its raw signature
values and what its signer is chosen by; the fields that only enter its
signing hash are not modelled, and that hash is a parameter wherever it is
used.
-/

namespace Classzz

/-- `types.Log`: the topics and the data of one event. -/
structure Log where
  topics : List Hash
  data : Bytes
  deriving DecidableEq, Repr

/-- `types.Receipt`: the status of a transaction and the logs it emitted. -/
structure Receipt where
  status : ℕ
  logs : List Log
  deriving DecidableEq, Repr

/-- `types.Transaction`, as far as it is read here: its type, its chain id,
its destination `To()` (`none` for a contract creation) and the raw `v`, `r`, `s` of
its signature. -/
structure Transaction where
  txType : UInt8
  chainId : ℕ
  toAddress : Option Address
  v : ℕ
  r : ℕ
  s : ℕ
  deriving DecidableEq, Repr

end Classzz
