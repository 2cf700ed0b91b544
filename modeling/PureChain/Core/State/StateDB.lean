import PureChain.Lib.Ledger
import PureChain.Common.Types

/-!
# The balances of the state database

`state.StateDB` keeps, for every account, a balance and – in this fork – a
*lock balance*: the part of the balance that came from block rewards and is
still being released. `GetBalance` and `GetLockBalance` read zero for an account
that has no state object, so both are ledgers over addresses
(`Ledger`), and the writes are the ledger's: `AddBalance` is a credit,
`SetBalance` an overwrite.

Only what the modelled code reads or writes is here: the two amounts of every
account. The nonce, the code and the storage of an account, the journal that
reverts a failed call, and the touching of an empty account that an addition of
zero does (it matters to the state root under EIP-158, not to any amount) are
left out.
-/

namespace PureChain

/-- The balances of `state.StateDB`: every account's balance and lock balance,
zero for an account never written. -/
structure StateDB where
  Balance : Address → ℤ
  LockBalance : Address → ℤ

namespace StateDB

variable (s : StateDB) (addr : Address) (amount : ℤ)

/-- `GetBalance`. -/
def GetBalance : ℤ := s.Balance addr

/-- `GetLockBalance`. -/
def GetLockBalance : ℤ := s.LockBalance addr

/-- `AddBalance`: `SetBalance(addr, Balance + amount)`, nothing for a zero amount. -/
def AddBalance : StateDB := { s with Balance := Ledger.credit s.Balance addr amount }

/-- `SetBalance`. -/
def SetBalance : StateDB := { s with Balance := Function.update s.Balance addr amount }

/-- `AddLockBalance`. -/
def AddLockBalance : StateDB := { s with LockBalance := Ledger.credit s.LockBalance addr amount }

/-- `SubLockBalance`: no floor; the caller checks. -/
def SubLockBalance : StateDB :=
  { s with LockBalance := Function.update s.LockBalance addr (s.LockBalance addr - amount) }

/-- `SetLockBalance`. -/
def SetLockBalance : StateDB :=
  { s with LockBalance := Function.update s.LockBalance addr amount }

/-! Each write changes one of the two ledgers. -/

@[simp] theorem AddBalance_Balance : (s.AddBalance addr amount).Balance =
    Ledger.credit s.Balance addr amount := rfl

@[simp] theorem AddBalance_LockBalance : (s.AddBalance addr amount).LockBalance = s.LockBalance :=
  rfl

@[simp] theorem SetBalance_Balance : (s.SetBalance addr amount).Balance =
    Function.update s.Balance addr amount := rfl

@[simp] theorem SetBalance_LockBalance : (s.SetBalance addr amount).LockBalance = s.LockBalance :=
  rfl

@[simp] theorem AddLockBalance_Balance : (s.AddLockBalance addr amount).Balance = s.Balance := rfl

@[simp] theorem AddLockBalance_LockBalance : (s.AddLockBalance addr amount).LockBalance =
    Ledger.credit s.LockBalance addr amount := rfl

@[simp] theorem SubLockBalance_Balance : (s.SubLockBalance addr amount).Balance = s.Balance := rfl

@[simp] theorem SetLockBalance_Balance : (s.SetLockBalance addr amount).Balance = s.Balance := rfl

end StateDB

end PureChain
