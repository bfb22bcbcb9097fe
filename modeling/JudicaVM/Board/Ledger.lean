import JudicaVM.Lib.Checked
import JudicaVM.Lib.OrderedMap

/-!
# Entities and tokens

The id allocator and the token ledger of the game board. A token keeps a balance for every
entity and a cached total. Amounts are `u128` and ids are `u64`, both with overflow checks.
-/

namespace JudicaVM

open Checked Std

/-- An id given to a user, a token, an NFT, a market or a producer. -/
abbrev EntityID := ℕ
abbrev TokenPointer := EntityID
abbrev NftPtr := EntityID
abbrev Currency := TokenPointer

/-- `EntityIDAllocator::new`: an easily recognised first number. -/
def EntityIDAllocator.new : ℕ := 0xc0de0000

/-- `EntityIDAllocator::make` returns the new id, which is also the allocator's new state. -/
def EntityIDAllocator.make (alloc : ℕ) : Except Panic EntityID := Checked.add 64 alloc 1

/-- A basic token. `transaction` and `end_transaction` have no effect outside test builds. -/
structure TokenBase where
  balances : ExtTreeMap EntityID ℕ
  /-- Cached from the sum of the balances. -/
  total : ℕ
  this : EntityID
  nickname : Option String

namespace TokenBase

/-- A token that nobody holds. -/
def empty (this : EntityID) (nickname : String) : TokenBase :=
  { balances := ∅, total := 0, this, nickname := some nickname }

def balanceCheck (t : TokenBase) (dest : EntityID) : ℕ := t.balances.getD dest 0

def mint (t : TokenBase) (dest : EntityID) (amount : ℕ) : Except Panic TokenBase := do
  let amt ← Checked.add 128 (t.balances.getD dest 0) amount
  let total ← Checked.add 128 t.total amount
  pure { t with balances := t.balances.insert dest amt, total }

def burn (t : TokenBase) (dest : EntityID) (amount : ℕ) : Except Panic TokenBase := do
  let amt ← Checked.sub (t.balances.getD dest 0) amount
  let total ← Checked.sub t.total amount
  pure { t with balances := t.balances.insert dest amt, total }

/-- Answers whether the sender had enough; if not, nothing changes. -/
def transfer (t : TokenBase) (sender receiver : EntityID) (amount : ℕ) :
    Except Panic (Bool × TokenBase) := do
  if t.balanceCheck sender < amount then
    return (false, t)
  let t ← t.burn sender amount
  let t ← t.mint receiver amount
  pure (true, t)

end TokenBase

/-- Parameters of a kind of hash board. -/
structure HashBoardData where
  hashPerWatt : ℕ
  reliability : ℕ

/-- The tokens and the metadata of the ones that compute hashes. -/
structure TokenRegistry where
  tokens : ExtTreeMap EntityID TokenBase
  hashboards : ExtTreeMap TokenPointer HashBoardData

namespace TokenRegistry

/-- `Index`: looking up a token that does not exist panics. -/
def index (r : TokenRegistry) (p : TokenPointer) : Except Panic TokenBase := unwrap r.tokens[p]?

def newToken (r : TokenRegistry) (t : TokenBase) : TokenPointer × TokenRegistry :=
  (t.this, { r with tokens := r.tokens.insert t.this t })

/-- Writing back through `IndexMut`. -/
def set (r : TokenRegistry) (p : TokenPointer) (t : TokenBase) : TokenRegistry :=
  { r with tokens := r.tokens.insert p t }

def balanceCheck (r : TokenRegistry) (p : TokenPointer) (who : EntityID) : Except Panic ℕ := do
  let t ← r.index p
  pure (t.balanceCheck who)

def transfer (r : TokenRegistry) (p : TokenPointer) (sender receiver : EntityID)
    (amount : ℕ) : Except Panic (Bool × TokenRegistry) := do
  let t ← r.index p
  let (moved, t) ← t.transfer sender receiver amount
  pure (moved, r.set p t)

def mint (r : TokenRegistry) (p : TokenPointer) (dest : EntityID) (amount : ℕ) :
    Except Panic TokenRegistry := do
  let t ← r.index p
  let t ← t.mint dest amount
  pure (r.set p t)

end TokenRegistry
end JudicaVM
