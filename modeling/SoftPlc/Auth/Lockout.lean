import SoftPlc.Lib.KeyMap
import Mathlib.Data.List.MinMax

/-!
# The lockout tracker

Failures and locks of the addresses (`plc-auth/src/lockout.rs`), one entry an address in a map of
bounded size. Times are nanoseconds; the order in which the map is walked is any
(`Iteration`).
-/

namespace SoftPlc.Auth

open SoftPlc.Lib

/-- A duration in nanoseconds. Source: `Duration::from_secs`. -/
def fromSecs (secs : ℕ) : ℕ := secs * 10 ^ 9

/-- Failure window. Source: `lockout.rs`, `FAIL_WINDOW`. -/
def failWindow : ℕ := fromSecs 60

/-- Bound on the tracked addresses. Source: `lockout.rs`, `MAX_TRACKED_IPS`. -/
def maxTrackedIps : ℕ := 4096

/-- Failures of one address, the oldest first, and its lock. Source: `lockout.rs`, `IpState`. -/
structure IpState where
  failures : List ℕ
  lockedUntil : Option ℕ
  deriving DecidableEq, Repr

namespace IpState

/-- Source: `lockout.rs`, `IpState::new`. -/
def new : IpState := ⟨[], none⟩

/-- Source: `lockout.rs`, `IpState::locked`. -/
def locked (s : IpState) (now : ℕ) : Bool := s.lockedUntil.any fun locked => now < locked

/-- Source: `lockout.rs`, `IpState::age_failures`; the difference of two times saturates. -/
def ageFailures (s : IpState) (now : ℕ) : IpState :=
  { s with failures := s.failures.dropWhile fun t => failWindow ≤ now - t }

/-- Source: `lockout.rs`, `IpState::idle`. -/
def idle (s : IpState) (now : ℕ) : Bool := !s.locked now && s.failures.isEmpty

/-- One entry of the sweep. Source: `lockout.rs`, the closure of `LockoutTracker::sweep`. -/
def sweep (now : ℕ) (s : IpState) : Option IpState :=
  let s := if s.lockedUntil.any (fun locked => locked ≤ now) then { s with lockedUntil := none } else s
  let s := s.ageFailures now
  if s.idle now then none else some s

end IpState

/-- The entries of the tracked addresses. Source: `lockout.rs`, the field `ips`. -/
abbrev IpMap (α : Type) : Type := AList fun _ : α => IpState

/-- The entry of an address, or a new one. Source: `lockout.rs`,
`self.ips.entry(ip).or_insert_with(IpState::new)`. -/
def IpMap.entry {α : Type} [DecidableEq α] (m : IpMap α) (ip : α) : IpState :=
  (m.lookup ip).getD .new

/-- An order in which the entries of a map are walked. Source: `HashMap::iter`. -/
structure Iteration (α : Type) where
  entries : List (Sigma fun _ : α => IpState) → List (Sigma fun _ : α => IpState)
  perm : ∀ l, (entries l).Perm l

/-- Source: `lockout.rs`, `LockoutTracker`. -/
structure LockoutTracker (α : Type) where
  failPerMin : UInt32
  lockout : ℕ
  maxIps : ℕ
  ips : IpMap α

/-- Source: `lockout.rs`, `remaining_secs`. -/
def remainingSecs (locked now : ℕ) : ℕ := max ((locked - now) / 10 ^ 9) 1

namespace LockoutTracker

variable {α : Type}

/-- Source: `lockout.rs`, `LockoutTracker::with_capacity`. -/
def withCapacity (failPerMin : UInt32) (lockoutSecs : UInt64) (maxIps : ℕ) : LockoutTracker α where
  failPerMin := max failPerMin 1
  lockout := fromSecs (max lockoutSecs.toNat 1)
  maxIps := max maxIps 1
  ips := ∅

/-- Source: `lockout.rs`, `LockoutTracker::new`. -/
def new (failPerMin : UInt32) (lockoutSecs : UInt64) : LockoutTracker α :=
  withCapacity failPerMin lockoutSecs maxTrackedIps

/-- Source: `lockout.rs`, `LockoutTracker::sweep`. -/
def sweep (t : LockoutTracker α) (now : ℕ) : LockoutTracker α :=
  { t with ips := retainMap (IpState.sweep now) t.ips }

/-- Source: `lockout.rs`, `LockoutTracker::oldest_unlocked`. -/
def oldestUnlocked (t : LockoutTracker α) (iter : Iteration α) (now : ℕ) : Option α :=
  let unlocked := (iter.entries t.ips.entries).filter fun e => !e.2.locked now
  (unlocked.argmin fun e => e.2.failures.head?.getD now).map Sigma.fst

/-- Source: `lockout.rs`, `LockoutTracker::soonest_lock`. -/
def soonestLock (t : LockoutTracker α) (iter : Iteration α) (now : ℕ) : Option α :=
  ((iter.entries t.ips.entries).argmin fun e => e.2.lockedUntil.getD now).map Sigma.fst

variable [DecidableEq α]

/-- Remaining lockout seconds, if the address is locked. Source: `lockout.rs`,
`LockoutTracker::locked_remaining`. -/
def lockedRemaining (t : LockoutTracker α) (ip : α) (now : ℕ) : Option ℕ × LockoutTracker α :=
  match t.ips.lookup ip with
  | none => (none, t)
  | some state =>
      match state.lockedUntil with
      | none => (none, t)
      | some locked =>
          if now < locked then (some (remainingSecs locked now), t)
          else (none, { t with ips := t.ips.insert ip { state with lockedUntil := none } })

/-- The rounds of the loop. Source: `lockout.rs`, `while self.ips.len() >= self.max_ips`. -/
def evictLoop (iter : Iteration α) (now : ℕ) : ℕ → LockoutTracker α → LockoutTracker α
  | 0, t => t
  | rounds + 1, t =>
      if t.maxIps ≤ t.ips.keys.length then
        match (t.oldestUnlocked iter now).or (t.soonestLock iter now) with
        | some ip => evictLoop iter now rounds { t with ips := t.ips.erase ip }
        | none => t
      else t

/-- Every round removes an entry, so there are no more than entries. Source: `lockout.rs`,
`LockoutTracker::evict_for_capacity`. -/
def evictForCapacity (t : LockoutTracker α) (iter : Iteration α) (now : ℕ) : LockoutTracker α :=
  evictLoop iter now t.ips.keys.length t

/-- Make room for an address that has no entry yet. Source: `lockout.rs`,
`if !self.ips.contains_key(&ip)`. -/
def makeRoom (t : LockoutTracker α) (iter : Iteration α) (ip : α) (now : ℕ) : LockoutTracker α :=
  if ip ∈ t.ips then t else t.evictForCapacity iter now

/-- The failure in the entry of its address. Source: `lockout.rs`, the end of `record_failure`. -/
def pushFailure (t : LockoutTracker α) (ip : α) (now : ℕ) : Option ℕ × LockoutTracker α :=
  let state := (t.ips.entry ip).ageFailures now
  let failures := state.failures ++ [now]
  if t.failPerMin ≤ UInt32.ofNat failures.length then
    let locked := now + t.lockout
    (some (remainingSecs locked now), { t with ips := t.ips.insert ip ⟨[], some locked⟩ })
  else (none, { t with ips := t.ips.insert ip { state with failures := failures } })

/-- Record a failure; the remaining seconds if the address is now locked. Source: `lockout.rs`,
`LockoutTracker::record_failure`. -/
def recordFailure (t : LockoutTracker α) (iter : Iteration α) (ip : α) (now : ℕ) :
    Option ℕ × LockoutTracker α :=
  match t.lockedRemaining ip now with
  | (some secs, t) => (some secs, t)
  | (none, t) => (((t.sweep now).makeRoom iter ip now).pushFailure ip now)

/-! ## What the operations do to the entries -/

/-- The entry of an address that was inserted. -/
theorem IpMap.entry_insert (m : IpMap α) (ip a : α) (s : IpState) :
    IpMap.entry (m.insert ip s) a = if a = ip then s else m.entry a := by
  unfold IpMap.entry
  split_ifs with h
  · rw [h, AList.lookup_insert]
    rfl
  · rw [AList.lookup_insert_ne h]

/-- An address is locked, and stays so, or it is not, and an expired lock is taken out. -/
theorem lockedRemaining_cases (t : LockoutTracker α) (ip : α) (now : ℕ) :
    ((t.ips.entry ip).locked now = true ∧ ∃ secs, t.lockedRemaining ip now = (some secs, t)) ∨
      ((t.ips.entry ip).locked now = false ∧ ∃ ips : IpMap α,
        t.lockedRemaining ip now = (none, { t with ips := ips }) ∧
          ips.keys.length = t.ips.keys.length ∧ ∀ a, ips.entry a =
            if a = ip then { t.ips.entry ip with lockedUntil := none } else t.ips.entry a) := by
  unfold lockedRemaining
  rcases hlook : t.ips.lookup ip with _ | state
  · have hentry : t.ips.entry ip = .new := by simp only [IpMap.entry, hlook, Option.getD_none]
    refine .inr ⟨by rw [hentry]; rfl, t.ips, rfl, rfl, ?_⟩
    intro a
    split_ifs with ha
    · rw [ha, hentry]
      rfl
    · rfl
  · have hentry : t.ips.entry ip = state := by simp only [IpMap.entry, hlook, Option.getD_some]
    rw [hentry]
    rcases hlock : state.lockedUntil with _ | locked
    · simp only [hlock]
      refine .inr ⟨by simp only [IpState.locked, hlock, Option.any_none], t.ips, rfl, rfl, ?_⟩
      intro a
      split_ifs with ha
      · rw [ha, hentry, ← hlock]
      · rfl
    · simp only [hlock]
      by_cases hnow : now < locked
      · refine .inl ⟨?_, remainingSecs locked now, if_pos hnow⟩
        simp only [IpState.locked, hlock, Option.any_some, hnow, decide_true]
      · refine .inr ⟨?_, t.ips.insert ip { state with lockedUntil := none }, if_neg hnow, ?_, ?_⟩
        · simp only [IpState.locked, hlock, Option.any_some, hnow, decide_false]
        · have hmem : ip ∈ t.ips := AList.lookup_isSome.mp (by rw [hlook]; rfl)
          rw [length_keys_insert, if_pos hmem]
        · exact fun a => IpMap.entry_insert t.ips ip a _

/-- An entry that a sweep does not keep is as good as a new one. -/
theorem entry_sweep (t : LockoutTracker α) (now : ℕ) (a : α) :
    (t.sweep now).ips.entry a = (IpState.sweep now (t.ips.entry a)).getD .new := by
  unfold sweep IpMap.entry
  rw [lookup_retainMap]
  rcases t.ips.lookup a with _ | s
  · rfl
  · rfl

/-- An entry that a sweep keeps. -/
theorem mem_sweep {t : LockoutTracker α} {now : ℕ} {a : α} (h : a ∈ (t.sweep now).ips) :
    ∃ s, IpState.sweep now (t.ips.entry a) = some s := by
  have hsome := AList.lookup_isSome.mpr h
  unfold sweep at hsome
  rw [lookup_retainMap] at hsome
  rcases hlook : t.ips.lookup a with _ | s
  · rw [hlook] at hsome
    cases hsome
  · rw [hlook] at hsome
    have hentry : t.ips.entry a = s := by simp only [IpMap.entry, hlook, Option.getD_some]
    rw [hentry]
    exact Option.isSome_iff_exists.mp hsome

/-- With room for one more address nothing is evicted. -/
theorem makeRoom_of_room {t : LockoutTracker α} {iter : Iteration α} {ip : α} {now : ℕ}
    (h : ip ∉ t.ips → t.ips.keys.length < t.maxIps) : t.makeRoom iter ip now = t := by
  unfold makeRoom evictForCapacity
  split_ifs with hmem
  · rfl
  · rcases hlen : t.ips.keys.length with _ | rounds
    · rfl
    · rw [evictLoop, if_neg (Nat.not_le.mpr (h hmem))]

/-! ## The size of the map -/

/-- The map holds no more addresses than the bound `n`. -/
structure Bounded (n : ℕ) (t : LockoutTracker α) : Prop where
  capacity : t.maxIps = n
  pos : 0 < n
  few : t.ips.keys.length ≤ n

omit [DecidableEq α] in
theorem bounded_withCapacity (failPerMin : UInt32) (lockoutSecs : UInt64) (maxIps : ℕ) :
    (withCapacity failPerMin lockoutSecs maxIps : LockoutTracker α).Bounded (max maxIps 1) where
  capacity := rfl
  pos := Nat.lt_of_lt_of_le Nat.one_pos (le_max_right maxIps 1)
  few := Nat.zero_le _

omit [DecidableEq α] in
/-- The address to evict has an entry. -/
theorem victim_mem {t : LockoutTracker α} {iter : Iteration α} {now : ℕ} {ip : α}
    (h : (t.oldestUnlocked iter now).or (t.soonestLock iter now) = some ip) : ip ∈ t.ips := by
  have hwalk : ∀ {e : Sigma fun _ : α => IpState}, e ∈ iter.entries t.ips.entries →
      e.1 ∈ t.ips := by
    intro e he
    exact AList.mem_keys.mpr (List.mem_keys_of_mem ((iter.perm _).mem_iff.mp he))
  rcases Option.or_eq_some_iff.mp h with h | ⟨-, h⟩
  · obtain ⟨e, he, rfl⟩ := Option.map_eq_some_iff.mp h
    exact hwalk (List.mem_filter.mp (List.argmin_mem he)).1
  · obtain ⟨e, he, rfl⟩ := Option.map_eq_some_iff.mp h
    exact hwalk (List.argmin_mem he)

omit [DecidableEq α] in
/-- There is an address to evict unless the map is empty. -/
theorem victim_none {t : LockoutTracker α} {iter : Iteration α} {now : ℕ}
    (h : (t.oldestUnlocked iter now).or (t.soonestLock iter now) = none) :
    t.ips.keys.length = 0 := by
  have hsoon := (Option.or_eq_none_iff.mp h).2
  have hnil := List.argmin_eq_none.mp (Option.map_eq_none_iff.mp hsoon)
  have hentries : t.ips.entries = [] := by
    have hperm := iter.perm t.ips.entries
    rw [hnil] at hperm
    exact hperm.symm.eq_nil
  simp only [AList.keys, hentries, List.keys_nil, List.length_nil]

/-- The loop ends with room for one more address. -/
theorem evictLoop_room {iter : Iteration α} {now rounds : ℕ} {t : LockoutTracker α}
    (hpos : 0 < t.maxIps) (h : t.ips.keys.length ≤ rounds) :
    (evictLoop iter now rounds t).ips.keys.length < t.maxIps := by
  induction rounds generalizing t with
  | zero => exact Nat.lt_of_le_of_lt h hpos
  | succ rounds ih =>
      rw [evictLoop]
      split_ifs with hfull
      · rcases hv : (t.oldestUnlocked iter now).or (t.soonestLock iter now) with _ | ip
        · exact Nat.lt_of_le_of_lt (victim_none hv).le hpos
        · apply @ih { t with ips := t.ips.erase ip } hpos
          have hmem := AList.mem_keys.mp (victim_mem hv)
          simp only [AList.keys_erase, List.length_erase_of_mem hmem]
          omega
      · exact Nat.not_le.mp hfull

/-- The loop changes the entries only. -/
theorem evictLoop_config (iter : Iteration α) (now rounds : ℕ) (t : LockoutTracker α) :
    ∃ ips, evictLoop iter now rounds t = { t with ips := ips } := by
  induction rounds generalizing t with
  | zero => exact ⟨t.ips, rfl⟩
  | succ rounds ih =>
      rw [evictLoop]
      split_ifs
      · rcases (t.oldestUnlocked iter now).or (t.soonestLock iter now) with _ | ip
        · exact ⟨t.ips, rfl⟩
        · exact ih { t with ips := t.ips.erase ip }
      · exact ⟨t.ips, rfl⟩

/-- There is room for the address once room is made. -/
theorem makeRoom_bounded {n : ℕ} {t : LockoutTracker α} (h : t.Bounded n) (iter : Iteration α)
    (ip : α) (now : ℕ) : (t.makeRoom iter ip now).Bounded n ∧
      (ip ∉ (t.makeRoom iter ip now).ips → (t.makeRoom iter ip now).ips.keys.length < n) := by
  unfold makeRoom
  split_ifs with hmem
  · exact ⟨h, fun hnot => absurd hmem hnot⟩
  · have hpos : 0 < t.maxIps := by
      rw [h.capacity]
      exact h.pos
    have hroom := @evictLoop_room _ _ iter now _ _ hpos (le_refl t.ips.keys.length)
    obtain ⟨ips, hips⟩ := evictLoop_config iter now t.ips.keys.length t
    unfold evictForCapacity
    rw [h.capacity, hips] at hroom
    rw [hips]
    exact ⟨⟨h.capacity, h.pos, hroom.le⟩, fun _ => hroom⟩

/-- The entry of the failing address is the only one that is written. -/
theorem pushFailure_ips (t : LockoutTracker α) (ip : α) (now : ℕ) :
    ∃ s, (t.pushFailure ip now).2 = { t with ips := t.ips.insert ip s } := by
  unfold pushFailure
  dsimp only
  split_ifs
  · exact ⟨_, rfl⟩
  · exact ⟨_, rfl⟩

/-- A look at the lock of an address adds none. -/
theorem lockedRemaining_bounded {n : ℕ} {t : LockoutTracker α} (h : t.Bounded n) (ip : α)
    (now : ℕ) : (t.lockedRemaining ip now).2.Bounded n := by
  rcases t.lockedRemaining_cases ip now with ⟨-, secs, hr⟩ | ⟨-, ips, hr, hlen, -⟩
  · rw [hr]
    exact h
  · rw [hr]
    exact ⟨h.capacity, h.pos, hlen.trans_le h.few⟩

/-- A failure leaves no more addresses than the bound. -/
theorem recordFailure_bounded {n : ℕ} {t : LockoutTracker α} (h : t.Bounded n)
    (iter : Iteration α) (ip : α) (now : ℕ) : (t.recordFailure iter ip now).2.Bounded n := by
  have hlook := lockedRemaining_bounded h ip now
  unfold recordFailure
  rcases hr : t.lockedRemaining ip now with ⟨_ | secs, t₁⟩
  · rw [hr] at hlook
    have hsweep : (t₁.sweep now).Bounded n :=
      ⟨hlook.capacity, hlook.pos, (retainMap_keys _ t₁.ips).length_le.trans hlook.few⟩
    obtain ⟨hroom, hnew⟩ := makeRoom_bounded hsweep iter ip now
    obtain ⟨s, hs⟩ := ((t₁.sweep now).makeRoom iter ip now).pushFailure_ips ip now
    simp only [hs]
    refine ⟨hroom.capacity, hroom.pos, ?_⟩
    rw [length_keys_insert]
    split_ifs with hmem
    · exact hroom.few
    · exact hnew hmem
  · rw [hr] at hlook
    exact hlook

end LockoutTracker

end SoftPlc.Auth
