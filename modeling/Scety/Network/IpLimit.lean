import Scety.Basic
import Scety.Lib.Transition

/-!
# `network/ip_limit.rs`: connection slots per client address

The table maps an address to the number of its tracked guards.  In every state that acquires and
drops reach, in any order, the stored counts are exactly the numbers of live tracked guards
(`Counted`); everything else about the table follows from that.
-/

namespace Scety

open Transition

inductive IpAddr where
  | v4 (bits : BitVec 32)
  | v6 (bits : BitVec 128)
  deriving DecidableEq

structure ConnectionGuard where
  ip : IpAddr
  tracked : Bool
  deriving DecidableEq

abbrev Connections := HashMap IpAddr ℕ

/-- `try_acquire`, with the table after the call.  `entry(ip).or_insert(0)` leaves an entry behind
even when the limit is reached. -/
def tryAcquire (map : Connections) (ip : IpAddr) (limit : Int32) :
    Except Unit ConnectionGuard × Connections :=
  if limit.toInt < 0 then (.ok ⟨ip, false⟩, map)
  else
    let count := (map.lookup ip).getD 0
    if limit.toInt.toNat ≤ count then (.error (), map.insert ip count)
    else (.ok ⟨ip, true⟩, map.insert ip (count + 1))

/-- `ConnectionGuard::drop`, as a function of the table.  Subtraction on `ℕ` saturates too. -/
def ConnectionGuard.drop (g : ConnectionGuard) (map : Connections) : Connections :=
  if ¬ g.tracked then map
  else
    match map.lookup g.ip with
    | some count =>
      let remaining := count - 1
      if remaining = 0 then (map.insert g.ip remaining).erase g.ip else map.insert g.ip remaining
    | none => map

/-! ### The count stored for an address -/

/-- The count stored for `ip`, 0 if it is absent. -/
def countOf (map : Connections) (ip : IpAddr) : ℕ := (map.lookup ip).getD 0

theorem countOf_insert (map : Connections) (ip ip' : IpAddr) (n : ℕ) :
    countOf (map.insert ip n) ip' = if ip' = ip then n else countOf map ip' := by
  unfold countOf
  rw [lookup_insert_eq]
  split_ifs <;> rfl

theorem countOf_erase (map : Connections) (ip ip' : IpAddr) :
    countOf (map.erase ip) ip' = if ip' = ip then 0 else countOf map ip' := by
  unfold countOf
  rw [lookup_erase_eq]
  split_ifs <;> rfl

/-- What `try_acquire` can do, with the count that it reads. -/
theorem tryAcquire_eq_cases (map : Connections) (ip : IpAddr) (limit : Int32) :
    (limit.toInt < 0 ∧ tryAcquire map ip limit = (.ok ⟨ip, false⟩, map)) ∨
    (0 ≤ limit.toInt ∧ limit.toInt ≤ countOf map ip ∧
      tryAcquire map ip limit = (.error (), map.insert ip (countOf map ip))) ∨
    (0 ≤ limit.toInt ∧ (countOf map ip : ℤ) < limit.toInt ∧
      tryAcquire map ip limit = (.ok ⟨ip, true⟩, map.insert ip (countOf map ip + 1))) := by
  unfold tryAcquire countOf
  by_cases hneg : limit.toInt < 0
  · exact Or.inl ⟨hneg, if_pos hneg⟩
  · right
    rw [if_neg hneg]
    dsimp only
    by_cases hfull : limit.toInt.toNat ≤ (map.lookup ip).getD 0
    · exact Or.inl ⟨by omega, by omega, if_pos hfull⟩
    · exact Or.inr ⟨by omega, by omega, if_neg hfull⟩

/-- An untracked guard, a refusal that changes no count, or a tracked guard and one more. -/
theorem tryAcquire_cases (map : Connections) (ip : IpAddr) (limit : Int32) :
    (limit.toInt < 0 ∧ tryAcquire map ip limit = (.ok ⟨ip, false⟩, map)) ∨
    (0 ≤ limit.toInt ∧ limit.toInt ≤ countOf map ip ∧ (tryAcquire map ip limit).1 = .error () ∧
      ∀ ip', countOf (tryAcquire map ip limit).2 ip' = countOf map ip') ∨
    (0 ≤ limit.toInt ∧ (countOf map ip : ℤ) < limit.toInt ∧
      (tryAcquire map ip limit).1 = .ok ⟨ip, true⟩ ∧
      ∀ ip', countOf (tryAcquire map ip limit).2 ip' =
        countOf map ip' + if ip' = ip then 1 else 0) := by
  obtain hneg | ⟨h0, hfull, heq⟩ | ⟨h0, hfree, heq⟩ := tryAcquire_eq_cases map ip limit
  · exact Or.inl hneg
  · refine Or.inr (Or.inl ⟨h0, hfull, by rw [heq], fun ip' => ?_⟩)
    rw [heq, countOf_insert]
    split_ifs with h
    · rw [h]
    · rfl
  · refine Or.inr (Or.inr ⟨h0, hfree, by rw [heq], fun ip' => ?_⟩)
    rw [heq, countOf_insert]
    split_ifs with h
    · rw [h]
    · rfl

/-- The guard holds one of the slots of `ip`. -/
def ConnectionGuard.holds (g : ConnectionGuard) (ip : IpAddr) : Bool :=
  g.tracked && decide (g.ip = ip)

/-- Dropping a tracked guard changes the entry of its address, and the last one removes it. -/
theorem lookup_drop {g : ConnectionGuard} {map : Connections} {count : ℕ} (ht : g.tracked = true)
    (hentry : map.lookup g.ip = some count) (ip : IpAddr) :
    (g.drop map).lookup ip = if ip = g.ip then (if count - 1 = 0 then none else some (count - 1))
      else map.lookup ip := by
  unfold ConnectionGuard.drop
  rw [if_neg (by simp [ht]), hentry]
  dsimp only
  by_cases h0 : count - 1 = 0
  · rw [if_pos h0, if_pos h0, lookup_erase_eq, lookup_insert_eq]
    split_ifs <;> rfl
  · rw [if_neg h0, if_neg h0, lookup_insert_eq]

/-- Dropping a guard frees the slot it holds. -/
theorem countOf_drop (g : ConnectionGuard) (map : Connections) (ip : IpAddr) :
    countOf (g.drop map) ip = countOf map ip - if g.holds ip then 1 else 0 := by
  unfold ConnectionGuard.holds
  cases ht : g.tracked with
  | false =>
    have hdrop : g.drop map = map := if_pos (by simp [ht])
    rw [hdrop, Bool.false_and]
    rfl
  | true =>
    simp only [Bool.true_and, decide_eq_true_eq]
    cases hl : map.lookup g.ip with
    | none =>
      have hdrop : g.drop map = map := by
        unfold ConnectionGuard.drop
        rw [if_neg (by simp [ht]), hl]
      rw [hdrop]
      split_ifs with h
      · subst h
        unfold countOf
        rw [hl]
        rfl
      · rfl
    | some count =>
      unfold countOf
      rw [lookup_drop ht hl]
      by_cases h : ip = g.ip
      · rw [if_pos h, if_pos h.symm, h, hl]
        split_ifs with h0
        · exact h0.symm
        · rfl
      · rw [if_neg h, if_neg (Ne.symm h)]
        rfl

/-- With a limit, a slot is given if and only if the count is below it. -/
theorem tryAcquire_ok_iff {map : Connections} {ip : IpAddr} {limit : Int32} (h : 0 ≤ limit.toInt) :
    (∃ g, (tryAcquire map ip limit).1 = .ok g) ↔ (countOf map ip : ℤ) < limit.toInt := by
  obtain ⟨hneg, -⟩ | ⟨-, hfull, herr, -⟩ | ⟨-, hfree, hok, -⟩ := tryAcquire_cases map ip limit
  · omega
  · refine ⟨fun ⟨g, hg⟩ => absurd (herr.symm.trans hg) (by simp), ?_⟩
    intro hlt
    omega
  · exact ⟨fun _ => hfree, fun _ => ⟨_, hok⟩⟩

/-- The answer of `try_acquire` depends on the count of its own address only. -/
theorem tryAcquire_congr {map map' : Connections} {ip : IpAddr}
    (h : countOf map ip = countOf map' ip) (limit : Int32) :
    (tryAcquire map ip limit).1 = (tryAcquire map' ip limit).1 := by
  unfold countOf at h
  unfold tryAcquire
  by_cases hneg : limit.toInt < 0
  · rw [if_pos hneg, if_pos hneg]
  · rw [if_neg hneg, if_neg hneg]
    dsimp only
    rw [h]
    split_ifs <;> rfl

theorem countOf_tryAcquire_of_ne {map : Connections} {ip ip' : IpAddr} (h : ip' ≠ ip)
    (limit : Int32) : countOf (tryAcquire map ip limit).2 ip' = countOf map ip' := by
  obtain ⟨-, heq⟩ | ⟨-, -, -, hcount⟩ | ⟨-, -, -, hcount⟩ := tryAcquire_cases map ip limit
  · rw [heq]
  · exact hcount ip'
  · rw [hcount, if_neg h, Nat.add_zero]

/-! ### Acquires and drops in any order -/

/-- The table and the guards that are alive. -/
structure Slots where
  table : Connections
  live : List ConnectionGuard

inductive SlotAction where
  | acquire (ip : IpAddr) (limit : Int32)
  | drop (g : ConnectionGuard)

inductive SlotStep : Slots → SlotAction → Slots → Prop where
  | acquired {s ip limit g} : (tryAcquire s.table ip limit).1 = .ok g →
      SlotStep s (.acquire ip limit) ⟨(tryAcquire s.table ip limit).2, g :: s.live⟩
  | refused {s ip limit} : (tryAcquire s.table ip limit).1 = .error () →
      SlotStep s (.acquire ip limit) ⟨(tryAcquire s.table ip limit).2, s.live⟩
  | dropped {s g l₁ l₂} : s.live = l₁ ++ g :: l₂ → SlotStep s (.drop g) ⟨g.drop s.table, l₁ ++ l₂⟩

def slotSystem : System Slots SlotAction where
  init s := s = ⟨∅, []⟩
  step := SlotStep

/-- The number of live tracked guards for an address. -/
def Slots.liveCount (s : Slots) (ip : IpAddr) : ℕ :=
  s.live.countP fun g => g.holds ip

/-- The invariant: stored counts are numbers of live tracked guards. -/
def Slots.Counted (s : Slots) : Prop := ∀ ip, countOf s.table ip = s.liveCount ip

theorem Slots.Counted.step {s s' : Slots} {a : SlotAction} (h : s.Counted)
    (hstep : SlotStep s a s') : s'.Counted := by
  intro ip'
  cases hstep with
  | @acquired ip limit g hok =>
    obtain ⟨-, heq⟩ | ⟨-, -, herr, -⟩ | ⟨-, -, hg, hcount⟩ := tryAcquire_cases s.table ip limit
    · rw [heq] at hok ⊢
      obtain rfl := Except.ok.inj hok
      rw [h ip']
      simp [liveCount, ConnectionGuard.holds]
    · exact absurd (herr.symm.trans hok) (by simp)
    · obtain rfl := Except.ok.inj (hg.symm.trans hok)
      rw [hcount, h ip']
      simp [liveCount, ConnectionGuard.holds, List.countP_cons, eq_comm]
  | @refused ip limit herr =>
    obtain ⟨-, heq⟩ | ⟨-, -, -, hcount⟩ | ⟨-, -, hg, -⟩ := tryAcquire_cases s.table ip limit
    · rw [heq] at herr
      exact absurd herr (by simp)
    · rw [hcount]
      exact h ip'
    · exact absurd (hg.symm.trans herr) (by simp)
  | @dropped g l₁ l₂ hlive =>
    rw [countOf_drop, h ip']
    simp only [liveCount, hlive, List.countP_append, List.countP_cons]
    omega

theorem counted_of_reachable {s : Slots} (h : slotSystem.Reachable s) : s.Counted := by
  refine h.invariant ?_ fun s a s' _ hc hstep => hc.step hstep
  rintro s rfl ip
  rfl

/-- A live tracked guard has an entry, with a count that can be taken from. -/
theorem Slots.Counted.exists_entry {s : Slots} (h : s.Counted) {g : ConnectionGuard}
    (hg : g ∈ s.live) (ht : g.tracked = true) : ∃ n, s.table.lookup g.ip = some (n + 1) := by
  have hpos : 0 < s.liveCount g.ip :=
    List.countP_pos_iff.mpr ⟨g, hg, by simp [ConnectionGuard.holds, ht]⟩
  have hcount : 0 < countOf s.table g.ip := by
    rw [h g.ip]
    exact hpos
  unfold countOf at hcount
  cases hl : s.table.lookup g.ip with
  | none =>
    rw [hl] at hcount
    exact absurd hcount (by simp)
  | some n =>
    rw [hl] at hcount
    have hn : 0 < n := hcount
    exact ⟨n - 1, congrArg some (by omega)⟩

/-- **Connection slots are counted exactly** in every reachable state: counts are numbers of live
tracked guards, so a slot is given if and only if fewer than the limit are alive; addresses do not
affect each other; and a dropped tracked guard finds its entry with a positive count. -/
theorem slots_counted_exactly {s : Slots} (hs : slotSystem.Reachable s) :
    (∀ ip, countOf s.table ip = s.liveCount ip) ∧
    (∀ ip (limit : Int32), 0 ≤ limit.toInt →
      ((∃ g, (tryAcquire s.table ip limit).1 = .ok g) ↔ (s.liveCount ip : ℤ) < limit.toInt)) ∧
    (∀ ip ip' limit limit', ip' ≠ ip →
      (tryAcquire (tryAcquire s.table ip limit).2 ip' limit').1 =
        (tryAcquire s.table ip' limit').1) ∧
    (∀ g ∈ s.live, ∀ ip' limit', ip' ≠ g.ip →
      (tryAcquire (g.drop s.table) ip' limit').1 = (tryAcquire s.table ip' limit').1) ∧
    (∀ g ∈ s.live, g.tracked = true → ∃ n, s.table.lookup g.ip = some (n + 1)) := by
  have hc : s.Counted := counted_of_reachable hs
  refine ⟨hc, fun ip limit hl => ?_, fun ip ip' limit limit' hne => ?_,
    fun g _ ip' limit' hne => ?_, fun g hg ht => hc.exists_entry hg ht⟩
  · rw [tryAcquire_ok_iff hl, hc ip]
  · exact tryAcquire_congr (countOf_tryAcquire_of_ne hne limit) limit'
  · refine tryAcquire_congr ?_ limit'
    have hholds : ¬ g.holds ip' = true := by
      simp [ConnectionGuard.holds, Ne.symm hne]
    rw [countOf_drop, if_neg hholds, Nat.sub_zero]

theorem slots_counted_exactly_one_guard :
    countOf (tryAcquire ∅ (.v4 1) 2).2 (.v4 1) =
      (⟨(tryAcquire ∅ (.v4 1) 2).2, [⟨.v4 1, true⟩]⟩ : Slots).liveCount (.v4 1) := by
  have hinit : slotSystem.Reachable ⟨∅, []⟩ := .init rfl
  have hstep : SlotStep ⟨∅, []⟩ (.acquire (.v4 1) 2)
      ⟨(tryAcquire ∅ (.v4 1) 2).2, [⟨.v4 1, true⟩]⟩ := .acquired rfl
  exact (slots_counted_exactly (.step hinit hstep)).1 (.v4 1)

end Scety
