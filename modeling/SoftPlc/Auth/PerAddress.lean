import SoftPlc.Auth.Service

/-!
# Lockout is per address

`Reference` is what one address sees when it is alone: the counted failures since its last lock and
the end of that lock. As long as fewer other addresses than the bound have a failure or a lock that
has not expired, nothing is evicted, and the tracker agrees with the reference of every address
(`IpMap.Tracks`) although it sweeps the entries of all on every failure.
-/

namespace SoftPlc.Auth

open SoftPlc.Lib

/-! ## The reference -/

/-- The tracker of one address. -/
structure Reference where
  /-- Times of the counted failures since the last lock. -/
  counted : List ℕ
  /-- End of the last lock. -/
  lockedUntil : ℕ
  deriving DecidableEq, Repr

/-- A failure that is less than a window old. -/
def within (now f : ℕ) : Bool := now < f + failWindow

namespace Reference

/-- An address that was never seen. -/
def new : Reference := ⟨[], 0⟩

/-- A counted failure: it locks the address when it completes `limit` of them in a window. -/
def fail (limit lockout : ℕ) (r : Reference) (now : ℕ) : Bool × Reference :=
  let counted := r.counted ++ [now]
  if limit ≤ (counted.filter (within now)).length then (true, ⟨[], now + lockout⟩)
  else (false, { r with counted := counted })

/-- A call: whether it is refused as locked. Until the lock ends it is, whatever it presents. -/
def call (limit lockout : ℕ) (r : Reference) (counts : Bool) (now : ℕ) : Bool × Reference :=
  if now < r.lockedUntil then (true, r)
  else if counts then r.fail limit lockout now
  else (false, r)

/-- There is a failure or a lock that has not expired. -/
def busy (r : Reference) (now : ℕ) : Bool :=
  r.counted.any (within now) || decide (now < r.lockedUntil)

end Reference

/-! ## An entry follows the reference -/

/-- The entry of an address agrees with its reference from `now` on, up to what has expired. -/
structure IpState.Follows (limit now : ℕ) (s : IpState) (r : Reference) : Prop where
  failures : s.failures.filter (within now) = r.counted.filter (within now)
  lock : ∀ t, now ≤ t → (s.locked t = true ↔ t < r.lockedUntil)
  ordered : s.failures.Pairwise (· ≤ ·)
  past : ∀ f ∈ s.failures, f ≤ now
  few : s.failures.length < limit

/-- What expires first stands first. -/
theorem dropWhile_eq_filter {p q : ℕ → Bool} {l : List ℕ} (hpq : ∀ f ∈ l, q f = !p f)
    (h : l.Pairwise fun a b => p b = true → p a = true) : l.dropWhile p = l.filter q := by
  induction l with
  | nil => rfl
  | cons f l ih =>
      obtain ⟨hf, hl⟩ := List.pairwise_cons.mp h
      have hq := hpq f List.mem_cons_self
      by_cases hp : p f = true
      · rw [hp] at hq
        rw [List.dropWhile_cons_of_pos hp, List.filter_cons_of_neg (by rw [hq]; simp)]
        exact ih (fun g hg => hpq g (List.mem_cons_of_mem _ hg)) hl
      · rw [Bool.not_eq_true] at hp
        rw [hp] at hq
        rw [List.dropWhile_cons_of_neg (by rw [hp]; simp)]
        refine (List.filter_eq_self.mpr ?_).symm
        intro g hg
        rw [hpq g hg]
        rcases List.mem_cons.mp hg with rfl | hg
        · rw [hp]
          rfl
        · by_contra hpg
          have hback := hf g hg (by simpa using hpg)
          rw [hp] at hback
          cases hback

namespace IpState

variable {limit now : ℕ} {s : IpState} {r : Reference}

/-- A new entry follows a reference with nothing that has not expired. -/
theorem Follows.of_idle (hlimit : 0 < limit) (hfail : r.counted.filter (within now) = [])
    (hlock : ¬ now < r.lockedUntil) : IpState.new.Follows limit now r where
  failures := hfail.symm
  lock := by
    intro t ht
    constructor
    · intro h
      cases h
    · intro h
      omega
  ordered := .nil
  past := fun _ hf => absurd hf List.not_mem_nil
  few := hlimit

/-- Time only lets things expire. -/
theorem Follows.later (h : s.Follows limit now r) {now' : ℕ} (hle : now ≤ now') :
    s.Follows limit now' r where
  failures := by
    have hexp : ∀ l : List ℕ, l.filter (within now') = (l.filter (within now)).filter
        (within now') := by
      intro l
      rw [List.filter_filter]
      apply List.filter_congr
      intro f _
      unfold within
      by_cases hf : now' < f + failWindow
      · rw [decide_eq_true hf, decide_eq_true (Nat.lt_of_le_of_lt hle hf)]
        rfl
      · rw [decide_eq_false hf, Bool.false_and]
    rw [hexp, h.failures, ← hexp]
  lock := fun t ht => h.lock t (hle.trans ht)
  ordered := h.ordered
  past := fun f hf => (h.past f hf).trans hle
  few := h.few

/-- A lock that has ended may be taken out. -/
theorem Follows.unlock (h : s.Follows limit now r) (hfree : s.locked now = false) :
    { s with lockedUntil := none : IpState }.Follows limit now r where
  failures := h.failures
  lock := by
    intro t ht
    have hnow := h.lock now le_rfl
    rw [hfree] at hnow
    constructor
    · intro hlocked
      cases hlocked
    · intro hlt
      exact absurd (hnow.mpr (Nat.lt_of_le_of_lt ht hlt)) Bool.false_ne_true
  ordered := h.ordered
  past := h.past
  few := h.few

/-- The failures that are left once the expired ones are taken out. -/
theorem Follows.ageFailures_eq (h : s.Follows limit now r) :
    (s.ageFailures now).failures = r.counted.filter (within now) := by
  rw [← h.failures]
  apply dropWhile_eq_filter
  · intro f hf
    have hpast := h.past f hf
    have hwindow : 0 < failWindow := by decide
    unfold within
    by_cases hexp : failWindow ≤ now - f
    · rw [decide_eq_true hexp, decide_eq_false (by omega)]
      rfl
    · rw [decide_eq_false hexp, decide_eq_true (by omega)]
      rfl
  · refine h.ordered.imp ?_
    intro f g hle hexp
    rw [decide_eq_true_eq] at hexp ⊢
    omega

/-- The expired failures may be taken out. -/
theorem Follows.age (h : s.Follows limit now r) : (s.ageFailures now).Follows limit now r where
  failures := by
    rw [h.ageFailures_eq, List.filter_filter]
    apply List.filter_congr
    intro f _
    rw [Bool.and_self]
  lock := h.lock
  ordered := h.ordered.sublist (List.dropWhile_sublist _)
  past := fun f hf => h.past f ((List.dropWhile_sublist _).subset hf)
  few := (List.dropWhile_sublist _).length_le.trans_lt h.few

/-- What a sweep makes of an entry; one that it keeps has something that has not expired. -/
theorem Follows.sweep (h : s.Follows limit now r) :
    ((s.sweep now).getD .new).Follows limit now r ∧ (s.sweep now ≠ none → r.busy now = true) := by
  have hunlock : (if s.lockedUntil.any (fun locked => locked ≤ now) then
      { s with lockedUntil := none } else s).Follows limit now r := by
    split_ifs with hended
    · apply h.unlock
      unfold locked
      rcases hlock : s.lockedUntil with _ | locked
      · rfl
      · rw [hlock, Option.any_some, decide_eq_true_eq] at hended
        rw [Option.any_some, decide_eq_false (Nat.not_lt.mpr hended)]
    · exact h
  unfold IpState.sweep
  generalize (if s.lockedUntil.any (fun locked => locked ≤ now) then
    { s with lockedUntil := none } else s) = s' at hunlock
  have hage := hunlock.age
  have hlock := hage.lock now le_rfl
  have hleft := hunlock.ageFailures_eq
  dsimp only
  by_cases hidle : (s'.ageFailures now).idle now = true
  · rw [if_pos hidle]
    refine ⟨?_, fun hne => absurd rfl hne⟩
    unfold idle at hidle
    rw [Bool.and_eq_true, Bool.not_eq_true', List.isEmpty_iff] at hidle
    rw [hidle.1] at hlock
    apply Follows.of_idle (Nat.zero_lt_of_lt h.few)
    · rw [← hleft, hidle.2]
    · exact fun hlt => absurd (hlock.mpr hlt) Bool.false_ne_true
  · rw [if_neg hidle]
    refine ⟨hage, fun _ => ?_⟩
    unfold Reference.busy
    rw [Bool.or_eq_true, decide_eq_true_eq]
    unfold idle at hidle
    by_cases hlocked : (s'.ageFailures now).locked now = true
    · exact .inr (hlock.mp hlocked)
    · rw [Bool.not_eq_true] at hlocked
      rw [hlocked, Bool.not_false, Bool.true_and, List.isEmpty_iff, hleft] at hidle
      obtain ⟨f, hf⟩ := List.exists_mem_of_ne_nil _ hidle
      obtain ⟨hmem, hwithin⟩ := List.mem_filter.mp hf
      exact .inl (List.any_eq_true.mpr ⟨f, hmem, hwithin⟩)

end IpState

/-! ## The map follows all references -/

variable {α : Type} [DecidableEq α]

/-- Every entry agrees with the reference of its address. -/
def IpMap.Tracks (limit now : ℕ) (m : IpMap α) (refs : α → Reference) : Prop :=
  ∀ a, (m.entry a).Follows limit now (refs a)

/-- There is room for one more address beside those with something that has not expired. -/
def Roomy (maxIps now : ℕ) (refs : α → Reference) (ip : α) : Prop :=
  ∀ addrs : List α, addrs.Nodup → ip ∉ addrs → (∀ a ∈ addrs, (refs a).busy now = true) →
    addrs.length < maxIps

namespace LockoutTracker

variable {t : LockoutTracker α} {refs : α → Reference} {ip : α} {now : ℕ}

/-- The look at the lock of an address agrees with its reference and keeps the others. -/
theorem lockedRemaining_tracks (ip : α) (h : t.ips.Tracks t.failPerMin.toNat now refs) :
    (now < (refs ip).lockedUntil ∧ ∃ secs, t.lockedRemaining ip now = (some secs, t)) ∨
      (¬ now < (refs ip).lockedUntil ∧ ∃ ips : IpMap α,
        t.lockedRemaining ip now = (none, { t with ips := ips }) ∧
          ips.Tracks t.failPerMin.toNat now refs) := by
  have hip := (h ip).lock now le_rfl
  rcases t.lockedRemaining_cases ip now with ⟨hlocked, hr⟩ | ⟨hfree, ips, hr, -, hentry⟩
  · exact .inl ⟨hip.mp hlocked, hr⟩
  · refine .inr ⟨?_, ips, hr, ?_⟩
    · intro hlt
      rw [hip.mpr hlt] at hfree
      cases hfree
    · intro a
      rw [hentry a]
      split_ifs with ha
      · rw [ha]
        exact (h ip).unlock hfree
      · exact h a

/-- The failure of an address is counted as its reference counts it. -/
theorem pushFailure_tracks (h : t.ips.Tracks t.failPerMin.toNat now refs)
    (hlimit : 0 < t.failPerMin.toNat) :
    ∃ secs, ∃ ips : IpMap α, t.pushFailure ip now = (secs, { t with ips := ips }) ∧
      secs.isSome = ((refs ip).fail t.failPerMin.toNat t.lockout now).1 ∧
        ips.Tracks t.failPerMin.toNat now (Function.update refs ip
          ((refs ip).fail t.failPerMin.toNat t.lockout now).2) := by
  have hage := (h ip).age
  have hleft := (h ip).ageFailures_eq
  have hnow : within now now = true := decide_eq_true (Nat.lt_add_of_pos_right (by decide))
  have hcounted : ((refs ip).counted ++ [now]).filter (within now) =
      ((t.ips.entry ip).ageFailures now).failures ++ [now] := by
    rw [List.filter_append, hleft, List.filter_singleton, hnow, cond_true]
  -- The length is at most the limit, a `u32`, so the cast does not truncate.
  have hcast : (UInt32.ofNat (((t.ips.entry ip).ageFailures now).failures ++ [now]).length).toNat =
      (((t.ips.entry ip).ageFailures now).failures ++ [now]).length := by
    have hfew := hage.few
    have hsize := t.failPerMin.toNat_lt
    apply UInt32.toNat_ofNat_of_lt'
    rw [List.length_append, List.length_singleton]
    show _ < 2 ^ 32
    omega
  have hothers : ∀ (s : IpState) (r : Reference), s.Follows t.failPerMin.toNat now r →
      IpMap.Tracks t.failPerMin.toNat now (t.ips.insert ip s) (Function.update refs ip r) := by
    intro s r hs a
    rw [IpMap.entry_insert]
    by_cases ha : a = ip
    · rw [if_pos ha, ha, Function.update_self]
      exact hs
    · rw [if_neg ha, Function.update_of_ne ha]
      exact h a
  have hfull_iff : t.failPerMin ≤
      UInt32.ofNat (((t.ips.entry ip).ageFailures now).failures ++ [now]).length ↔
        t.failPerMin.toNat ≤ (((t.ips.entry ip).ageFailures now).failures ++ [now]).length := by
    rw [UInt32.le_iff_toNat_le, hcast]
  unfold pushFailure Reference.fail
  simp only [hcounted]
  by_cases hfull : t.failPerMin.toNat ≤
      (((t.ips.entry ip).ageFailures now).failures ++ [now]).length
  · simp only [if_pos (hfull_iff.mpr hfull), if_pos hfull]
    refine ⟨_, _, rfl, rfl, hothers _ _ ⟨rfl, ?_, .nil, ?_, hlimit⟩⟩
    · intro t' _
      unfold IpState.locked
      rw [Option.any_some, decide_eq_true_eq]
    · exact fun _ hf => absurd hf List.not_mem_nil
  · simp only [if_neg (fun hle => hfull (hfull_iff.mp hle)), if_neg hfull]
    refine ⟨_, _, rfl, rfl, hothers _ _ ⟨?_, hage.lock, ?_, ?_, Nat.not_le.mp hfull⟩⟩
    · rw [← hcounted, List.filter_filter]
      apply List.filter_congr
      intro f _
      rw [Bool.and_self]
    · refine List.pairwise_append.mpr ⟨hage.ordered, List.pairwise_singleton _ _, ?_⟩
      intro f hf g hg
      rw [List.mem_singleton.mp hg]
      exact hage.past f hf
    · intro f hf
      rcases List.mem_append.mp hf with hf | hf
      · exact hage.past f hf
      · exact (List.mem_singleton.mp hf).le

/-- **A failure with room**: it is counted as the reference of its address counts it, and no other
address notices the sweep. -/
theorem recordFailure_tracks (h : t.ips.Tracks t.failPerMin.toNat now refs)
    (hlimit : 0 < t.failPerMin.toNat) (hfree : ¬ now < (refs ip).lockedUntil)
    (hroom : Roomy t.maxIps now refs ip) (iter : Iteration α) :
    ∃ secs, ∃ ips : IpMap α, t.recordFailure iter ip now = (secs, { t with ips := ips }) ∧
      secs.isSome = ((refs ip).fail t.failPerMin.toNat t.lockout now).1 ∧
        ips.Tracks t.failPerMin.toNat now (Function.update refs ip
          ((refs ip).fail t.failPerMin.toNat t.lockout now).2) := by
  rcases lockedRemaining_tracks ip h with ⟨hlocked, -⟩ | ⟨-, ips, hr, htracks⟩
  · exact absurd hlocked hfree
  · unfold recordFailure
    rw [hr]
    dsimp only
    have hsweep : (sweep { t with ips := ips } now).ips.Tracks t.failPerMin.toNat now refs := by
      intro a
      rw [entry_sweep]
      exact (htracks a).sweep.1
    -- What the sweep leaves has not expired, so there is room and nothing is evicted.
    have hkeep : (sweep { t with ips := ips } now).makeRoom iter ip now =
        sweep { t with ips := ips } now := by
      apply makeRoom_of_room
      intro hnew
      apply hroom _ (AList.keys_nodup _) (fun hin => hnew (AList.mem_keys.mpr hin))
      intro a ha
      obtain ⟨s, hs⟩ := mem_sweep (AList.mem_keys.mpr ha)
      apply (htracks a).sweep.2
      intro hnone
      rw [hnone] at hs
      cases hs
    rw [hkeep]
    exact pushFailure_tracks (t := sweep { t with ips := ips } now) hsweep hlimit

end LockoutTracker

/-! ## Runs of calls -/

/-- The address is told that it is locked. -/
def isLocked : Except AuthError Principal → Bool
  | .error (.locked _) => true
  | _ => false

/-- A counted failure does not expire at once. -/
theorem Reference.fail_busy {limit lockout : ℕ} (hlockout : 0 < lockout) (r : Reference) (now : ℕ) :
    (r.fail limit lockout now).2.busy now = true := by
  unfold Reference.fail Reference.busy
  dsimp only
  rw [Bool.or_eq_true, decide_eq_true_eq]
  split_ifs
  · exact .inr (Nat.lt_add_of_pos_right hlockout)
  · refine .inl (List.any_eq_true.mpr ⟨now, List.mem_append_right _ (List.mem_singleton_self now), ?_⟩)
    exact decide_eq_true (Nat.lt_add_of_pos_right (by decide))

namespace AuthService

/-- A service that has seen no call. Source: `service.rs`, `AuthService::from_config_with_clock`,
with the capacity of its tracker. -/
def withCapacity (required : Bool) (principals : List StoredPrincipal) (failPerMin : UInt32)
    (lockoutSecs : UInt64) (maxIps : ℕ) : AuthService α :=
  ⟨required, principals, .withCapacity failPerMin lockoutSecs maxIps⟩

variable (hashSecret : List UInt8 → List UInt8)

omit [DecidableEq α] in
/-- Credentials that are refused are not refused as locked. -/
theorem verify_error {s : AuthService α} {cred : Credential} {err : AuthError}
    (h : s.verify hashSecret cred = .error err) : err = .unauthenticated := by
  unfold verify at h
  rcases cred with _ | token | ⟨fingerprint, cn⟩
  · dsimp only at h
    split_ifs at h
    cases h
    rfl
  · dsimp only at h
    rcases hmatch : s.matchToken (hashSecret token.toUTF8.data.toList) with _ | p
    · rw [hmatch] at h
      cases h
      rfl
    · rw [hmatch] at h
      cases h
  · dsimp only at h
    rcases hmatch : s.matchCert fingerprint with _ | p
    · rw [hmatch] at h
      cases h
      rfl
    · rw [hmatch] at h
      cases h

/-- The reference of the address that makes some calls. -/
def reference (s : AuthService α) (calls : List (Call α)) : Reference :=
  calls.foldl (fun r c =>
    (r.call s.lockout.failPerMin.toNat s.lockout.lockout (s.counts hashSecret c) c.now).2) .new

/-- The calls of an address. -/
def callsOf (a : α) (calls : List (Call α)) : List (Call α) := calls.filter fun c => c.ip = a

/-- The addresses other than `x` with a failure or a lock that has not expired. -/
def others (s : AuthService α) (x : α) (calls : List (Call α)) (now : ℕ) : List α :=
  (calls.map Call.ip).dedup.filter fun a =>
    a ≠ x && (s.reference hashSecret (callsOf a calls)).busy now

/-- At no call there are as many of them as the tracker may hold. -/
def Uncrowded (s : AuthService α) (x : α) (calls : List (Call α)) : Prop :=
  ∀ n, (h : n < calls.length) →
    (s.others hashSecret x (calls.take (n + 1)) calls[n].now).length < s.lockout.maxIps

variable {s : AuthService α} {refs : α → Reference}

/-- **One call with room**: it is refused as locked when the reference of its address says so, and
every entry goes on to follow its reference. -/
theorem authenticate_tracks {c : Call α}
    (h : s.lockout.ips.Tracks s.lockout.failPerMin.toNat c.now refs)
    (hlimit : 0 < s.lockout.failPerMin.toNat)
    (hroom : s.counts hashSecret c = true → ¬ c.now < (refs c.ip).lockedUntil →
      Roomy s.lockout.maxIps c.now refs c.ip) :
    ∃ o, ∃ ips : IpMap α,
      s.authenticate hashSecret c = (o, { s with lockout := { s.lockout with ips := ips } }) ∧
        isLocked o = ((refs c.ip).call s.lockout.failPerMin.toNat s.lockout.lockout
          (s.counts hashSecret c) c.now).1 ∧
        ips.Tracks s.lockout.failPerMin.toNat c.now (Function.update refs c.ip
          ((refs c.ip).call s.lockout.failPerMin.toNat s.lockout.lockout
            (s.counts hashSecret c) c.now).2) := by
  unfold authenticate Reference.call
  rcases LockoutTracker.lockedRemaining_tracks c.ip h with ⟨hlocked, secs, hr⟩ |
    ⟨hfree, ips, hr, htracks⟩
  · rw [hr, if_pos hlocked, Function.update_eq_self]
    exact ⟨_, s.lockout.ips, rfl, rfl, h⟩
  · rw [hr, if_neg hfree]
    unfold counts at hroom ⊢
    rcases hverify : s.verify hashSecret c.cred with err | principal
    · rw [hverify] at hroom
      have herr := verify_error hashSecret hverify
      subst herr
      unfold fail
      dsimp only at hroom ⊢
      by_cases hcount : shouldCountFailure c.cred s.required = true
      · obtain ⟨secs, ips', hrec, hsecs, htracks'⟩ := LockoutTracker.recordFailure_tracks
          (t := { s.lockout with ips := ips }) htracks hlimit hfree (hroom hcount hfree) c.iter
        rw [if_pos hcount, if_pos hcount, hrec]
        rcases secs with _ | secs
        · exact ⟨_, ips', rfl, hsecs, htracks'⟩
        · exact ⟨_, ips', rfl, hsecs, htracks'⟩
      · rw [if_neg hcount, if_neg hcount, Function.update_eq_self]
        exact ⟨_, ips, rfl, rfl, htracks⟩
    · rw [if_neg Bool.false_ne_true, Function.update_eq_self]
      exact ⟨_, ips, rfl, rfl, htracks⟩

/-- The references after one more call. -/
theorem reference_snoc (s : AuthService α) (calls : List (Call α)) (c : Call α) :
    (fun a => s.reference hashSecret (callsOf a (calls ++ [c]))) =
      Function.update (fun a => s.reference hashSecret (callsOf a calls)) c.ip
        ((s.reference hashSecret (callsOf c.ip calls)).call s.lockout.failPerMin.toNat
          s.lockout.lockout (s.counts hashSecret c) c.now).2 := by
  funext a
  unfold callsOf
  rw [List.filter_append]
  by_cases ha : a = c.ip
  · rw [ha, Function.update_self, List.filter_cons_of_pos (by simp), List.filter_nil]
    unfold reference
    rw [List.foldl_append]
    rfl
  · rw [Function.update_of_ne ha, List.filter_cons_of_neg (by simpa using Ne.symm ha),
      List.filter_nil, List.append_nil]

/-- An address with something that has not expired has made a call. -/
theorem mem_of_busy {calls : List (Call α)} {a : α} {now : ℕ}
    (h : (s.reference hashSecret (callsOf a calls)).busy now = true) : a ∈ calls.map Call.ip := by
  by_contra hnot
  have hnil : callsOf a calls = [] := by
    apply List.filter_eq_nil_iff.mpr
    intro c hc hip
    exact hnot (List.mem_map.mpr ⟨c, hc, of_decide_eq_true hip⟩)
  rw [hnil] at h
  cases h

/-- Addresses with something that has not expired are no more than the others that are counted. -/
theorem length_le_others {x : α} {calls : List (Call α)} {now : ℕ} {addrs : List α}
    (hnodup : addrs.Nodup) (hne : x ∉ addrs)
    (hbusy : ∀ a ∈ addrs, (s.reference hashSecret (callsOf a calls)).busy now = true) :
    addrs.length ≤ (s.others hashSecret x calls now).length := by
  refine (List.subperm_of_subset hnodup ?_).length_le
  intro a ha
  refine List.mem_filter.mpr ⟨List.mem_dedup.mpr (mem_of_busy hashSecret (hbusy a ha)), ?_⟩
  rw [Bool.and_eq_true, decide_eq_true_eq]
  exact ⟨fun heq => hne (heq ▸ ha), hbusy a ha⟩

/-- When the others are few after a counted failure, there was room for it. -/
theorem roomy_of_others {x : α} {calls : List (Call α)} {c : Call α}
    (hlockout : 0 < s.lockout.lockout) (hcounts : s.counts hashSecret c = true)
    (hfree : ¬ c.now < (s.reference hashSecret (callsOf c.ip calls)).lockedUntil)
    (hfew : (s.others hashSecret x (calls ++ [c]) c.now).length < s.lockout.maxIps) :
    Roomy s.lockout.maxIps c.now (fun a => s.reference hashSecret (callsOf a calls)) c.ip := by
  intro addrs hnodup hip hbusy
  have hafter := reference_snoc hashSecret s calls c
  have hbusy' : ∀ a ∈ addrs, (s.reference hashSecret (callsOf a (calls ++ [c]))).busy c.now =
      true := by
    intro a ha
    have hsame := congrFun hafter a
    rw [Function.update_of_ne (ne_of_mem_of_not_mem ha hip)] at hsame
    rw [hsame]
    exact hbusy a ha
  by_cases hx : x = c.ip
  · exact (length_le_others hashSecret hnodup (hx ▸ hip) hbusy').trans_lt hfew
  · -- The failing address is one of the others now, and takes the place of `x`.
    have hself : (s.reference hashSecret (callsOf c.ip (calls ++ [c]))).busy c.now = true := by
      have hsame := congrFun hafter c.ip
      rw [Function.update_self] at hsame
      rw [hsame]
      unfold Reference.call
      rw [if_neg hfree, if_pos hcounts]
      exact Reference.fail_busy hlockout _ _
    have hlen : (c.ip :: addrs.erase x).length ≤ (s.others hashSecret x (calls ++ [c])
        c.now).length := by
      apply length_le_others hashSecret
      · exact List.nodup_cons.mpr ⟨fun hin => hip (List.mem_of_mem_erase hin), hnodup.erase x⟩
      · intro hin
        rcases List.mem_cons.mp hin with heq | hin
        · exact hx heq
        · exact hnodup.not_mem_erase hin
      · intro a ha
        rcases List.mem_cons.mp ha with rfl | ha
        · exact hself
        · exact hbusy' a (List.mem_of_mem_erase ha)
    have herase := @List.le_length_erase _ _ _ x addrs
    rw [List.length_cons] at hlen
    omega

/-- A crowd that a longer run avoids. -/
theorem uncrowded_snoc {x : α} {calls : List (Call α)} {c : Call α}
    (h : s.Uncrowded hashSecret x (calls ++ [c])) : s.Uncrowded hashSecret x calls ∧
      (s.others hashSecret x (calls ++ [c]) c.now).length < s.lockout.maxIps := by
  constructor
  · intro n hn
    have hfew := h n (by rw [List.length_append]; omega)
    rw [List.take_append_of_le_length hn, List.getElem_append_left hn] at hfew
    exact hfew
  · have hfew := h calls.length (by simp)
    rw [List.take_of_length_le (by simp), List.getElem_concat_length rfl] at hfew
    exact hfew

/-- **A run without a crowd**: every entry follows the reference of its address. -/
theorem run_tracks {x : α} (hstart : s.lockout.ips = ∅) (hlimit : 0 < s.lockout.failPerMin.toNat)
    (hlockout : 0 < s.lockout.lockout) {calls : List (Call α)}
    (htimes : (calls.map Call.now).Pairwise (· ≤ ·)) (hfew : s.Uncrowded hashSecret x calls) :
    ∃ ips : IpMap α,
      s.run hashSecret calls = { s with lockout := { s.lockout with ips := ips } } ∧
        ∀ now, (∀ c ∈ calls, c.now ≤ now) → ips.Tracks s.lockout.failPerMin.toNat now
          fun a => s.reference hashSecret (callsOf a calls) := by
  induction calls using List.reverseRecOn with
  | nil =>
      refine ⟨s.lockout.ips, rfl, ?_⟩
      intro now _ a
      rw [hstart]
      exact IpState.Follows.of_idle hlimit rfl (Nat.not_lt_zero now)
  | append_singleton calls c ih =>
      rw [List.map_append, List.pairwise_append] at htimes
      obtain ⟨hcalls, -, hlast⟩ := htimes
      obtain ⟨hbefore, hothers⟩ := uncrowded_snoc hashSecret hfew
      obtain ⟨ips, hrun, htracks⟩ := ih hcalls hbefore
      have hpast : ∀ d ∈ calls, d.now ≤ c.now := fun d hd =>
        hlast d.now (List.mem_map_of_mem hd) c.now (by simp)
      obtain ⟨o, ips', hauth, -, htracks'⟩ := authenticate_tracks hashSecret
        (s := { s with lockout := { s.lockout with ips := ips } }) (htracks c.now hpast) hlimit
        fun hcounts hfree => roomy_of_others hashSecret hlockout hcounts hfree hothers
      refine ⟨ips', ?_, ?_⟩
      · unfold run at hrun ⊢
        rw [List.foldl_append, hrun, List.foldl_cons, List.foldl_nil, hauth]
      · intro now hnow a
        rw [reference_snoc]
        exact (htracks' a).later (hnow c (by simp))

/-- Whether the reference of the address of a call, fed only its own calls, refuses it as locked. -/
def refused (s : AuthService α) (before : List (Call α)) (c : Call α) : Bool :=
  ((s.reference hashSecret (callsOf c.ip before)).call s.lockout.failPerMin.toNat
    s.lockout.lockout (s.counts hashSecret c) c.now).1

/-- **Lockout is per address**: at times that do not decrease, while fewer others than the tracker
may hold have a failure or a lock that has not expired, a call is refused as locked exactly when the
reference of its address says so; and no sequence of calls makes the tracker hold more addresses than
it may. -/
theorem locked_per_address (required : Bool) (principals : List StoredPrincipal)
    (failPerMin : UInt32) (lockoutSecs : UInt64) (maxIps : ℕ) :
    let s : AuthService α := .withCapacity required principals failPerMin lockoutSecs maxIps
    (∀ before c, ((before ++ [c]).map Call.now).Pairwise (· ≤ ·) →
      s.Uncrowded hashSecret c.ip (before ++ [c]) →
        isLocked ((s.run hashSecret before).authenticate hashSecret c).1 =
          s.refused hashSecret before c) ∧
      ∀ calls, (s.run hashSecret calls).lockout.ips.keys.length ≤ s.lockout.maxIps := by
  intro s
  have hlimit : 0 < s.lockout.failPerMin.toNat := by
    show 0 < (if failPerMin ≤ 1 then 1 else failPerMin).toNat
    split_ifs with hle
    · exact Nat.one_pos
    · exact Nat.zero_lt_of_lt (UInt32.lt_iff_toNat_lt.mp (UInt32.not_le.mp hle))
  have hlockout : 0 < s.lockout.lockout := by
    show 0 < max lockoutSecs.toNat 1 * 10 ^ 9
    exact Nat.mul_pos (Nat.lt_of_lt_of_le Nat.one_pos (le_max_right _ 1)) (by decide)
  constructor
  · intro before c htimes hfew
    rw [List.map_append, List.pairwise_append] at htimes
    obtain ⟨hbefore, -, hlast⟩ := htimes
    obtain ⟨hcalm, hothers⟩ := uncrowded_snoc hashSecret hfew
    obtain ⟨ips, hrun, htracks⟩ := run_tracks hashSecret rfl hlimit hlockout hbefore hcalm
    have hpast : ∀ d ∈ before, d.now ≤ c.now := fun d hd =>
      hlast d.now (List.mem_map_of_mem hd) c.now (by simp)
    obtain ⟨o, ips', hauth, hlocked, -⟩ := authenticate_tracks hashSecret
      (s := { s with lockout := { s.lockout with ips := ips } }) (htracks c.now hpast) hlimit
      fun hcounts hfree => roomy_of_others hashSecret hlockout hcounts hfree hothers
    rw [hrun, hauth]
    exact hlocked
  · intro calls
    exact (run_bounded hashSecret (LockoutTracker.bounded_withCapacity _ _ _) calls).few

/-- A call at a time in seconds that walks the map in its order. -/
def certCall (ip : ℕ) (secs : ℕ) (fingerprint : List UInt8) : Call ℕ :=
  ⟨.clientCert fingerprint none, ip, fromSecs secs, ⟨id, fun _ => .refl _⟩⟩

/-- Two failures lock the first address, and the valid certificate is then refused; the failure of
the second address in between changes nothing. -/
theorem locked_per_address_cert :
    let s : AuthService ℕ := .withCapacity true [⟨"panel", .operator, none, some [7]⟩] 2 30 2
    isLocked ((s.run id [certCall 1 0 [1], certCall 2 1 [1], certCall 1 2 [1]]).authenticate id
      (certCall 1 31 [7])).1 = true := by
  intro s
  have hlocked := (locked_per_address (α := ℕ) id true [⟨"panel", .operator, none, some [7]⟩] 2 30
    2).1 [certCall 1 0 [1], certCall 2 1 [1], certCall 1 2 [1]] (certCall 1 31 [7]) (by decide)
  rw [hlocked]
  · decide
  · unfold Uncrowded
    decide

end AuthService

end SoftPlc.Auth
