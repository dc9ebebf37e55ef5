import Scety.Network.IpLimit

/-!
# `network/ip_limit.rs`: the addresses in the table

Guards remove the entry of their address when they are the last ones, so the addresses in the table
are those with a live tracked guard.  The exception is a limit of 0: the entry is created before the
limit is tested, the acquire is refused, and no guard will remove the entry
(`addresses_exact_iff`).
-/

namespace Scety

open Transition

/-! ### The entries after each operation -/

/-- A refusal leaves the entries as they are, unless it creates one. -/
theorem lookup_refused {map : Connections} {ip : IpAddr} {limit : Int32}
    (herr : (tryAcquire map ip limit).1 = .error ()) (ip' : IpAddr) :
    (tryAcquire map ip limit).2.lookup ip' =
      if ip' = ip then some (countOf map ip) else map.lookup ip' := by
  obtain ⟨-, heq⟩ | ⟨-, -, heq⟩ | ⟨-, -, heq⟩ := tryAcquire_eq_cases map ip limit
  · rw [heq] at herr
    exact absurd herr (by simp)
  · rw [heq, lookup_insert_eq]
  · rw [heq] at herr
    exact absurd herr (by simp)

theorem limit_le_of_refused {map : Connections} {ip : IpAddr} {limit : Int32}
    (herr : (tryAcquire map ip limit).1 = .error ()) :
    0 ≤ limit.toInt ∧ limit.toInt ≤ countOf map ip := by
  obtain ⟨-, heq⟩ | ⟨h0, hfull, -⟩ | ⟨-, -, heq⟩ := tryAcquire_eq_cases map ip limit
  · rw [heq] at herr
    exact absurd herr (by simp)
  · exact ⟨h0, hfull⟩
  · rw [heq] at herr
    exact absurd herr (by simp)

/-! ### The addresses with live guards -/

/-- The addresses in the table are those with a live tracked guard. -/
def Slots.Exact (s : Slots) : Prop :=
  ∀ ip, ip ∈ s.table ↔ ∃ g ∈ s.live, g.tracked = true ∧ g.ip = ip

/-- The action is an acquire with limit 0 for an address without a live tracked guard. -/
def Slots.LeavesEntry (s : Slots) : SlotAction → Prop
  | .acquire ip limit => limit = 0 ∧ ¬ ∃ g ∈ s.live, g.tracked = true ∧ g.ip = ip
  | .drop _ => False

theorem Slots.leavesEntry_acquire_iff {s : Slots} {ip : IpAddr} {limit : Int32} :
    s.LeavesEntry (.acquire ip limit) ↔
      limit = 0 ∧ ¬ ∃ g ∈ s.live, g.tracked = true ∧ g.ip = ip := Iff.rfl

theorem Slots.liveCount_pos_iff {s : Slots} {ip : IpAddr} :
    0 < s.liveCount ip ↔ ∃ g ∈ s.live, g.tracked = true ∧ g.ip = ip := by
  unfold liveCount ConnectionGuard.holds
  rw [List.countP_pos_iff]
  simp

/-- When counts are those of live guards, the addresses are exact if and only if no entry is 0. -/
theorem Slots.Counted.exact_iff {s : Slots} (h : s.Counted) :
    s.Exact ↔ ∀ ip, s.table.lookup ip ≠ some 0 := by
  unfold Exact
  refine forall_congr' fun ip => ?_
  rw [← s.liveCount_pos_iff, ← h ip, ← AList.lookup_isSome]
  unfold countOf
  cases s.table.lookup ip with
  | none => simp
  | some n => cases n <;> simp

/-- `try_acquire` can only create an entry of 0 for its own address, by a refusal. -/
theorem tryAcquire_ne_zero {map : Connections} (hmap : ∀ ip, map.lookup ip ≠ some 0) {ip : IpAddr}
    {limit : Int32} {g : ConnectionGuard} (hok : (tryAcquire map ip limit).1 = .ok g) (ip' : IpAddr) :
    (tryAcquire map ip limit).2.lookup ip' ≠ some 0 := by
  obtain ⟨-, heq⟩ | ⟨-, -, heq⟩ | ⟨-, -, heq⟩ := tryAcquire_eq_cases map ip limit
  · rw [heq]
    exact hmap ip'
  · rw [heq] at hok
    exact absurd hok (by simp)
  · rw [heq, lookup_insert_eq]
    split_ifs
    · simp
    · exact hmap ip'

theorem Slots.Counted.not_leavesEntry_of_ok {s : Slots} (h : s.Counted) {ip : IpAddr}
    {limit : Int32} {g : ConnectionGuard} (hok : (tryAcquire s.table ip limit).1 = .ok g) :
    ¬ s.LeavesEntry (.acquire ip limit) := by
  rintro ⟨rfl, hno⟩
  rw [← s.liveCount_pos_iff, ← h ip] at hno
  have hlt := (tryAcquire_ok_iff (by decide)).mp ⟨g, hok⟩
  rw [Int32.toInt_zero] at hlt
  omega

/-- A refusal leaves an entry of 0 behind if and only if the count is 0, and then the limit is. -/
theorem Slots.Counted.leavesEntry_iff_of_refused {s : Slots} (h : s.Counted) {ip : IpAddr}
    {limit : Int32} (herr : (tryAcquire s.table ip limit).1 = .error ()) :
    s.LeavesEntry (.acquire ip limit) ↔ countOf s.table ip = 0 := by
  obtain ⟨h0, hle⟩ := limit_le_of_refused herr
  rw [leavesEntry_acquire_iff, ← s.liveCount_pos_iff, ← h ip, Nat.pos_iff_ne_zero, not_not]
  refine ⟨And.right, fun hcount => ⟨?_, hcount⟩⟩
  rw [hcount] at hle
  refine Int32.toInt_inj.mp ?_
  rw [Int32.toInt_zero]
  exact le_antisymm hle h0

/-- **One step** keeps the addresses exact if and only if it is no acquire with limit 0 for an
address without a live tracked guard. -/
theorem Slots.Exact.step_iff {s s' : Slots} {a : SlotAction} (hc : s.Counted) (he : s.Exact)
    (hstep : SlotStep s a s') : s'.Exact ↔ ¬ s.LeavesEntry a := by
  rw [(hc.step hstep).exact_iff]
  have hmap := hc.exact_iff.mp he
  cases hstep with
  | @acquired ip limit g hok =>
    exact iff_of_true (tryAcquire_ne_zero hmap hok) (hc.not_leavesEntry_of_ok hok)
  | @refused ip limit herr =>
    rw [hc.leavesEntry_iff_of_refused herr]
    refine ⟨fun hall h0 => hall ip ?_, fun h0 ip' => ?_⟩
    · rw [lookup_refused herr, if_pos rfl, h0]
    · rw [lookup_refused herr]
      split_ifs
      · exact fun h => h0 (Option.some.inj h)
      · exact hmap ip'
  | @dropped g l₁ l₂ hlive =>
    refine iff_of_true (fun ip => ?_) id
    cases ht : g.tracked with
    | false =>
      have hdrop : g.drop s.table = s.table := if_pos (by simp [ht])
      rw [hdrop]
      exact hmap ip
    | true =>
      have hg : g ∈ s.live := by
        rw [hlive]
        simp
      obtain ⟨n, hn⟩ := hc.exists_entry hg ht
      rw [lookup_drop ht hn, Nat.add_sub_cancel]
      split_ifs with hip h0
      · simp
      · exact fun h => h0 (Option.some.inj h)
      · exact hmap ip

/-- A refusal that leaves no entry behind leaves the table as it is. -/
theorem Slots.Counted.lookup_of_refused {s : Slots} (hc : s.Counted) {ip : IpAddr} {limit : Int32}
    (hno : ¬ s.LeavesEntry (.acquire ip limit))
    (herr : (tryAcquire s.table ip limit).1 = .error ()) (ip' : IpAddr) :
    (tryAcquire s.table ip limit).2.lookup ip' = s.table.lookup ip' := by
  rw [hc.leavesEntry_iff_of_refused herr] at hno
  rw [lookup_refused herr]
  split_ifs with hip
  · subst hip
    unfold countOf at hno ⊢
    cases hl : s.table.lookup ip' with
    | none =>
      rw [hl] at hno
      exact absurd rfl hno
    | some n => rfl
  · rfl

/-- With exact addresses, there are at most as many as live tracked guards. -/
theorem Slots.Exact.length_keys_le {s : Slots} (he : s.Exact) :
    s.table.keys.length ≤ s.live.countP (·.tracked) := by
  have hsub : s.table.keys ⊆ (s.live.filter (·.tracked)).map (·.ip) := by
    intro ip hip
    obtain ⟨g, hg, ht, rfl⟩ := (he ip).mp hip
    exact List.mem_map_of_mem (List.mem_filter.mpr ⟨hg, ht⟩)
  calc s.table.keys.length ≤ ((s.live.filter (·.tracked)).map (·.ip)).length :=
        (s.table.keys_nodup.subperm hsub).length_le
    _ = s.live.countP (·.tracked) := by rw [List.length_map, List.countP_eq_length_filter]

/-- The runs without an acquire with limit 0 for an address without a live tracked guard. -/
def traceless : System Slots SlotAction := slotSystem.when fun s a => ¬ s.LeavesEntry a

theorem exact_of_traceless {s : Slots} (h : traceless.Reachable s) : s.Exact := by
  refine h.invariant ?_ fun s a s' hs he hstep =>
    (he.step_iff (counted_of_reachable hs.of_when) hstep.2).mpr hstep.1
  rintro s rfl ip
  simp

/-- **A refused connection leaves no trace** in the runs without an acquire with limit 0 for an
address without a live tracked guard: the addresses in the table are those with a live tracked
guard, there are at most as many as such guards, and refusals leave the table as it is.  A step
that is such an acquire leaves an address without a guard. -/
theorem addresses_exact_iff {s : Slots} (hs : traceless.Reachable s) :
    s.Exact ∧ s.table.keys.length ≤ s.live.countP (·.tracked) ∧
    (∀ ip limit, ¬ s.LeavesEntry (.acquire ip limit) →
      (tryAcquire s.table ip limit).1 = .error () →
        ∀ ip', (tryAcquire s.table ip limit).2.lookup ip' = s.table.lookup ip') ∧
    ∀ a s', slotSystem.step s a s' → (s'.Exact ↔ ¬ s.LeavesEntry a) := by
  have hc : s.Counted := counted_of_reachable hs.of_when
  have he : s.Exact := exact_of_traceless hs
  exact ⟨he, he.length_keys_le, fun ip limit hno herr => hc.lookup_of_refused hno herr,
    fun a s' hstep => he.step_iff hc hstep⟩

theorem addresses_exact_one_guard :
    (⟨(tryAcquire ∅ (.v4 1) 2).2, [⟨.v4 1, true⟩]⟩ : Slots).Exact := by
  have hinit : traceless.Reachable ⟨∅, []⟩ := .init rfl
  have hstep : SlotStep ⟨∅, []⟩ (.acquire (.v4 1) 2)
      ⟨(tryAcquire ∅ (.v4 1) 2).2, [⟨.v4 1, true⟩]⟩ := .acquired rfl
  have hlimit : ¬ (⟨∅, []⟩ : Slots).LeavesEntry (.acquire (.v4 1) 2) := fun h =>
    absurd h.1 (by decide)
  exact (addresses_exact_iff (.step hinit ⟨hlimit, hstep⟩)).1

/-- An address that is refused with limit 0 stays in the table. -/
theorem addresses_not_exact : ¬ ∀ s, slotSystem.Reachable s → s.Exact := by
  intro hall
  have hinit : slotSystem.Reachable ⟨∅, []⟩ := .init rfl
  have hstep : SlotStep ⟨∅, []⟩ (.acquire (.v4 1) 0) ⟨(tryAcquire ∅ (.v4 1) 0).2, []⟩ :=
    .refused rfl
  have hmem : IpAddr.v4 1 ∈ (tryAcquire ∅ (.v4 1) 0).2 := (AList.mem_insert _).mpr (Or.inl rfl)
  obtain ⟨g, hg, -⟩ := (hall _ (.step hinit hstep) (.v4 1)).mp hmem
  exact absurd hg List.not_mem_nil

end Scety
