import JudicaVM.Board.Ledger

/-!
# Balances and totals

On tokens whose cached total is the sum of their balances, a transfer never aborts, and it is
described by its effect on the balances. This is what the rest of the development uses of the
ledger.
-/

namespace JudicaVM

open Checked Std OrderedMap

namespace TokenBase

/-- The cached total is the sum of the balances and fits its type. -/
structure Sound (t : TokenBase) : Prop where
  total_eq : t.total = valueSum t.balances
  total_lt : t.total < 2 ^ 128

/-- The token after a transfer that the sender can pay. -/
def moved (t : TokenBase) (sender receiver : EntityID) (amount : ℕ) : TokenBase :=
  let balances := t.balances.insert sender (t.balanceCheck sender - amount)
  { t with balances := balances.insert receiver (balances.getD receiver 0 + amount) }

/-- The token after new coins were created. -/
def minted (t : TokenBase) (dest : EntityID) (amount : ℕ) : TokenBase :=
  { t with
    balances := t.balances.insert dest (t.balanceCheck dest + amount)
    total := t.total + amount }

variable {t t' : TokenBase} {sender receiver dest who : EntityID} {amount : ℕ}

@[simp] theorem moved_total : (t.moved sender receiver amount).total = t.total := rfl
@[simp] theorem moved_this : (t.moved sender receiver amount).this = t.this := rfl
@[simp] theorem moved_nickname : (t.moved sender receiver amount).nickname = t.nickname := rfl
@[simp] theorem minted_total : (t.minted dest amount).total = t.total + amount := rfl
@[simp] theorem minted_this : (t.minted dest amount).this = t.this := rfl
@[simp] theorem minted_nickname : (t.minted dest amount).nickname = t.nickname := rfl

private theorem moved_balanceCheck :
    (t.moved sender receiver amount).balanceCheck who =
      t.balanceCheck who - (if sender = who then amount else 0)
        + (if receiver = who then amount else 0) := by
  simp only [moved, balanceCheck, getD_insert]
  by_cases hr : receiver = who
  · subst hr
    by_cases hs : sender = receiver <;> simp [hs]
  · by_cases hs : sender = who <;> simp [hr, hs]

private theorem minted_balanceCheck :
    (t.minted dest amount).balanceCheck who =
      t.balanceCheck who + (if dest = who then amount else 0) := by
  simp only [minted, balanceCheck, getD_insert]
  by_cases hd : dest = who <;> simp [hd]

private theorem balanceCheck_le_total (h : t.Sound) : t.balanceCheck who ≤ t.total :=
  h.total_eq ▸ getD_le_valueSum t.balances who

private theorem sum_balanceCheck_le_total {l : List EntityID} (h : t.Sound) (hl : l.Nodup) :
    (l.map t.balanceCheck).sum ≤ t.total :=
  h.total_eq ▸ sum_getD_le_valueSum t.balances hl

theorem empty_sound (this : EntityID) (nickname : String) : (empty this nickname).Sound :=
  ⟨by simp [empty], by simp [empty]⟩

private theorem moved_sound (h : t.Sound) (hle : amount ≤ t.balanceCheck sender) :
    (t.moved sender receiver amount).Sound := by
  have h1 := valueSum_insert t.balances sender (t.balanceCheck sender - amount)
  have h2 := valueSum_insert (t.balances.insert sender (t.balanceCheck sender - amount)) receiver
    ((t.balances.insert sender (t.balanceCheck sender - amount)).getD receiver 0 + amount)
  have ht := h.total_eq
  have hb : t.balances.getD sender 0 = t.balanceCheck sender := rfl
  refine ⟨?_, h.total_lt⟩
  simp only [moved]
  omega

private theorem minted_sound (h : t.Sound) (hlt : t.total + amount < 2 ^ 128) :
    (t.minted dest amount).Sound := by
  have h1 := valueSum_insert t.balances dest (t.balanceCheck dest + amount)
  have ht := h.total_eq
  have hb : t.balances.getD dest 0 = t.balanceCheck dest := rfl
  refine ⟨?_, hlt⟩
  simp only [minted]
  omega

private theorem transfer_eq (h : t.Sound) :
    t.transfer sender receiver amount =
      if t.balanceCheck sender < amount then .ok (false, t)
      else .ok (true, t.moved sender receiver amount) := by
  have hs : t.balanceCheck sender ≤ t.total := balanceCheck_le_total h
  have hlt := h.total_lt
  by_cases hb : t.balanceCheck sender < amount
  · simp [transfer, hb]
  · have hle : amount ≤ t.balanceCheck sender := Nat.le_of_not_lt hb
    have hburn : t.burn sender amount =
        .ok { t with
          balances := t.balances.insert sender (t.balanceCheck sender - amount)
          total := t.total - amount } := by
      have h1 := sub_of_le hle
      have h2 := sub_of_le (hle.trans hs)
      simp only [balanceCheck] at h1
      simp [burn, h1, h2, balanceCheck]
    have hsum : (t.moved sender receiver amount).balanceCheck receiver ≤ t.total :=
      balanceCheck_le_total (moved_sound h hle)
    have hrec : (t.balances.insert sender (t.balanceCheck sender - amount)).getD receiver 0 + amount
        < 2 ^ 128 := by
      simp only [moved, balanceCheck, getD_insert, if_true] at hsum ⊢
      omega
    have htot : t.total - amount + amount = t.total := by omega
    have h3 := add_of_lt hrec
    have h4 : add 128 (t.total - amount) amount = .ok (t.total - amount + amount) :=
      add_of_lt (by omega)
    simp only [transfer, if_neg hb, hburn, ok_bind, mint, h3, h4, pure_eq_ok, htot]
    simp [moved]

private theorem mint_eq_ok_iff (h : t.Sound) :
    t.mint dest amount = .ok t' ↔ t.total + amount < 2 ^ 128 ∧ t.minted dest amount = t' := by
  have hb : t.balanceCheck dest ≤ t.total := balanceCheck_le_total h
  by_cases hlt : t.total + amount < 2 ^ 128
  · have h1 : add 128 (t.balances.getD dest 0) amount = .ok (t.balances.getD dest 0 + amount) := by
      simp only [balanceCheck] at hb
      exact add_of_lt (by omega)
    simp only [hlt, true_and]
    simp [mint, h1, add_of_lt hlt, minted, balanceCheck]
  · simp only [hlt, false_and, iff_false]
    intro hok
    simp only [mint, bind_eq_ok_iff, add_eq_ok_iff] at hok
    obtain ⟨_, _, _, ⟨hlt', _⟩, _⟩ := hok
    exact hlt hlt'

end TokenBase

namespace TokenRegistry

/-- Every token is sound, is filed under its own id and has a nickname. -/
def Sound (r : TokenRegistry) : Prop :=
  ∀ p (t : TokenBase), r.tokens[p]? = some t → t.Sound ∧ t.this = p ∧ t.nickname.isSome

def balance (r : TokenRegistry) (p : TokenPointer) (who : EntityID) : ℕ :=
  (r.tokens[p]?.map (·.balanceCheck who)).getD 0

def total (r : TokenRegistry) (p : TokenPointer) : ℕ := (r.tokens[p]?.map (·.total)).getD 0

def Has (r : TokenRegistry) (p : TokenPointer) : Prop := r.tokens[p]?.isSome

instance (r : TokenRegistry) (p : TokenPointer) : Decidable (r.Has p) :=
  inferInstanceAs (Decidable (r.tokens[p]?.isSome = true))

/-- The registry after a token was replaced by a function of it. -/
def update (r : TokenRegistry) (p : TokenPointer) (f : TokenBase → TokenBase) : TokenRegistry :=
  match r.tokens[p]? with
  | some t => r.set p (f t)
  | none => r

/-- The registry after a transfer that the sender can pay. -/
def moved (r : TokenRegistry) (p : TokenPointer) (sender receiver : EntityID) (amount : ℕ) :
    TokenRegistry :=
  r.update p (·.moved sender receiver amount)

/-- The registry after new coins were created. -/
def minted (r : TokenRegistry) (p : TokenPointer) (dest : EntityID) (amount : ℕ) :
    TokenRegistry :=
  r.update p (·.minted dest amount)

variable {r r' : TokenRegistry} {p q : TokenPointer} {t : TokenBase}
  {sender receiver dest who : EntityID} {amount : ℕ} {f : TokenBase → TokenBase}

@[simp] theorem update_hashboards : (r.update p f).hashboards = r.hashboards := by
  unfold update
  split <;> rfl

private theorem update_getElem? : (r.update p f).tokens[q]? =
    if p = q then r.tokens[q]?.map f else r.tokens[q]? := by
  unfold update
  by_cases h : p = q
  · subst h
    split <;> rename_i ht <;> simp [set, ht]
  · split <;> simp [set, getElem?_insert, h]

@[simp] theorem update_has : (r.update p f).Has q ↔ r.Has q := by
  unfold Has
  rw [update_getElem?]
  by_cases h : p = q <;> simp [h]

private theorem set_self (h : r.tokens[p]? = some t) : r.set p t = r := by
  have htokens : r.tokens.insert p t = r.tokens := by
    refine ExtTreeMap.ext_getElem? fun k => ?_
    rw [OrderedMap.getElem?_insert]
    by_cases hk : p = k
    · simp [← hk, h]
    · simp [hk]
  cases r
  simp [set] at htokens ⊢
  exact htokens

theorem index_eq_ok_iff : r.index p = .ok t ↔ r.tokens[p]? = some t := unwrap_eq_ok_iff

theorem balanceCheck_eq_ok_iff {b : ℕ} :
    r.balanceCheck p who = .ok b ↔ r.Has p ∧ r.balance p who = b := by
  unfold balanceCheck index Has balance
  cases r.tokens[p]? <;> simp [unwrap]

theorem balanceCheck_of_has (h : r.Has p) : r.balanceCheck p who = .ok (r.balance p who) :=
  balanceCheck_eq_ok_iff.mpr ⟨h, rfl⟩

private theorem balance_of_some (h : r.tokens[p]? = some t) :
    r.balance p who = t.balanceCheck who := by
  simp [balance, h]

theorem total_of_some (h : r.tokens[p]? = some t) : r.total p = t.total := by
  simp [total, h]

theorem balance_le_total (h : r.Sound) : r.balance p who ≤ r.total p := by
  cases hp : r.tokens[p]? with
  | none => simp [balance, hp]
  | some t =>
    rw [balance_of_some hp, total_of_some hp]
    exact TokenBase.balanceCheck_le_total (h p t hp).1

theorem sum_balance_le_total {l : List EntityID} (h : r.Sound) (hl : l.Nodup) :
    (l.map (r.balance p)).sum ≤ r.total p := by
  cases hp : r.tokens[p]? with
  | none =>
    have hzero : r.balance p = fun _ => 0 := funext fun _ => by simp [balance, hp]
    simp [hzero]
  | some t =>
    have hbalance : r.balance p = t.balanceCheck := funext fun _ => balance_of_some hp
    rw [hbalance, total_of_some hp]
    exact TokenBase.sum_balanceCheck_le_total (h p t hp).1 hl

theorem total_lt (h : r.Sound) : r.total p < 2 ^ 128 := by
  cases hp : r.tokens[p]? with
  | none => simp [total, hp]
  | some t =>
    rw [total_of_some hp]
    exact (h p t hp).1.total_lt

@[simp] theorem moved_has : (r.moved p sender receiver amount).Has q ↔ r.Has q := update_has

@[simp] theorem moved_hashboards : (r.moved p sender receiver amount).hashboards = r.hashboards :=
  update_hashboards

@[simp] theorem moved_total : (r.moved p sender receiver amount).total q = r.total q := by
  unfold total moved
  rw [update_getElem?]
  by_cases h : p = q
  · subst h
    cases r.tokens[p]? <;> simp
  · simp [h]

theorem moved_balance (hp : r.Has p) :
    (r.moved p sender receiver amount).balance q who =
      if p = q then
        r.balance p who - (if sender = who then amount else 0)
          + (if receiver = who then amount else 0)
      else r.balance q who := by
  obtain ⟨t, ht⟩ := Option.isSome_iff_exists.mp hp
  unfold balance moved
  rw [update_getElem?]
  by_cases hq : p = q
  · subst hq
    simpa [ht] using TokenBase.moved_balanceCheck
  · simp [hq]

private theorem update_sound (h : r.Sound)
    (hf : ∀ t, r.tokens[p]? = some t →
      (f t).Sound ∧ (f t).this = t.this ∧ (f t).nickname = t.nickname) :
    (r.update p f).Sound := by
  intro q t ht
  rw [update_getElem?] at ht
  by_cases hq : p = q
  · subst hq
    simp only [if_true, Option.map_eq_some_iff] at ht
    obtain ⟨u, hu, rfl⟩ := ht
    obtain ⟨hs, hthis, hnick⟩ := hf u hu
    exact ⟨hs, hthis.trans (h p u hu).2.1, hnick ▸ (h p u hu).2.2⟩
  · rw [if_neg hq] at ht
    exact h q t ht

theorem moved_sound (h : r.Sound) (hle : amount ≤ r.balance p sender) :
    (r.moved p sender receiver amount).Sound :=
  update_sound h fun t ht =>
    ⟨TokenBase.moved_sound (h p t ht).1 (balance_of_some ht ▸ hle), rfl, rfl⟩

theorem transfer_eq (h : r.Sound) (hp : r.Has p) :
    r.transfer p sender receiver amount =
      if r.balance p sender < amount then .ok (false, r)
      else .ok (true, r.moved p sender receiver amount) := by
  obtain ⟨t, ht⟩ := Option.isSome_iff_exists.mp hp
  have hmoved : r.moved p sender receiver amount = r.set p (t.moved sender receiver amount) := by
    simp [moved, update, ht]
  rw [balance_of_some ht, hmoved]
  simp only [transfer, index, ht, unwrap_some, ok_bind, TokenBase.transfer_eq (h p t ht).1]
  by_cases hb : t.balanceCheck sender < amount
  · simp [hb, set_self ht]
  · simp [hb]

theorem has_of_transfer {x : Bool × TokenRegistry}
    (h : r.transfer p sender receiver amount = .ok x) : r.Has p := by
  unfold transfer index at h
  cases hp : r.tokens[p]? with
  | none => simp [hp, unwrap] at h
  | some t => simp [Has, hp]

@[simp] theorem minted_has : (r.minted p dest amount).Has q ↔ r.Has q := update_has

@[simp] theorem minted_hashboards : (r.minted p dest amount).hashboards = r.hashboards :=
  update_hashboards

theorem minted_total (hp : r.Has p) :
    (r.minted p dest amount).total q = r.total q + if p = q then amount else 0 := by
  obtain ⟨t, ht⟩ := Option.isSome_iff_exists.mp hp
  unfold total minted
  rw [update_getElem?]
  by_cases h : p = q
  · subst h
    simp [ht]
  · simp [h]

theorem minted_balance (hp : r.Has p) :
    (r.minted p dest amount).balance q who =
      r.balance q who + if p = q ∧ dest = who then amount else 0 := by
  obtain ⟨t, ht⟩ := Option.isSome_iff_exists.mp hp
  unfold balance minted
  rw [update_getElem?]
  by_cases h : p = q
  · subst h
    simp [ht, TokenBase.minted_balanceCheck]
  · simp [h]

theorem minted_sound (h : r.Sound) (hlt : r.total p + amount < 2 ^ 128) :
    (r.minted p dest amount).Sound :=
  update_sound h fun t ht =>
    ⟨TokenBase.minted_sound (h p t ht).1 (total_of_some ht ▸ hlt), rfl, rfl⟩

theorem mint_eq_ok_iff (h : r.Sound) :
    r.mint p dest amount = .ok r' ↔
      r.Has p ∧ r.total p + amount < 2 ^ 128 ∧ r.minted p dest amount = r' := by
  cases hp : r.tokens[p]? with
  | none => simp [mint, index, unwrap, Has, hp]
  | some t =>
    have hm : r.minted p dest amount = r.set p (t.minted dest amount) := by
      simp [minted, update, hp]
    rw [hm, total_of_some hp]
    simp only [mint, index, hp, unwrap_some, ok_bind, bind_eq_ok_iff, pure_eq_ok, Has,
      Option.isSome_some, true_and, TokenBase.mint_eq_ok_iff (h p t hp).1]
    constructor
    · rintro ⟨u, ⟨hlt, rfl⟩, hu⟩
      exact ⟨hlt, Except.ok.inj hu⟩
    · rintro ⟨hlt, rfl⟩
      exact ⟨_, ⟨hlt, rfl⟩, rfl⟩

theorem newToken_getElem? :
    (r.newToken t).2.tokens[q]? = if t.this = q then some t else r.tokens[q]? := by
  simp [newToken, getElem?_insert]

theorem newToken_sound (h : r.Sound) (ht : t.Sound) (hnick : t.nickname.isSome) :
    (r.newToken t).2.Sound := by
  intro q u hu
  rw [newToken_getElem?] at hu
  by_cases hq : t.this = q
  · rw [if_pos hq, Option.some.injEq] at hu
    exact hu ▸ ⟨ht, hq, hnick⟩
  · rw [if_neg hq] at hu
    exact h q u hu

end TokenRegistry
end JudicaVM
