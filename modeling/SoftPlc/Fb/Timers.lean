import SoftPlc.Fb.Primitives
import SoftPlc.Lib.Since

/-!
# The timing laws of the timers

An instance sees its inputs one sample at a time. Its state after a trace is a fold of `eval`, and
each law reads the outputs off the whole trace: the on-delay timer counts from the sample at which
the present period of `IN` began (`Ton.timing_law`), the off-delay timer holds `Q` from the first
sample after such a period (`Tof.timing_law`). The pulse timer is compared with `Pulse`, which
starts a pulse at every rising edge that meets none in progress (`Tp.kept_iff`).
-/

namespace SoftPlc.Fb

open SoftPlc.Lib

/-- `IN` at one call of a timer, with the time of the call. -/
structure InputSample where
  input : Bool
  now : ℕ
  deriving DecidableEq, Repr

/-- All inputs of one call of a timer. -/
structure TimerSample extends InputSample where
  pt : BitVec 32
  deriving DecidableEq, Repr

/-- The preset time that counts. Source: `timer.rs`, `pt.max(0)`. -/
def TimerSample.preset (x : TimerSample) : ℤ := max x.pt.toInt 0

/-- Milliseconds from one sample to a later one. Source: `timer.rs`,
`now_ms.saturating_sub(start_ms)`. -/
def TimerSample.since (x s : TimerSample) : ℤ := ((x.now - s.now : ℕ) : ℤ)

/-- `IN` is on at a sample. -/
abbrev On (x : TimerSample) : Prop := x.input = true

/-! ## Arithmetic -/

theorem maxI32_toInt (a b : BitVec 32) : (maxI32 a b).toInt = max a.toInt b.toInt := by
  unfold maxI32
  split <;> rename_i h <;> simp only [BitVec.slt_iff_toInt_lt] at h <;> omega

theorem minI32_toInt (a b : BitVec 32) : (minI32 a b).toInt = min a.toInt b.toInt := by
  unfold minI32
  split <;> rename_i h <;> simp only [BitVec.slt_iff_toInt_lt] at h <;> omega

theorem preset_toInt (pt : BitVec 32) : (maxI32 pt 0).toInt = max pt.toInt 0 :=
  maxI32_toInt pt 0

/-- The elapsed time is exact up to `pt`, for gaps of any length. -/
theorem etFromDelta_toInt (start now : ℕ) (pt : BitVec 32) :
    (etFromDelta start now pt).toInt = min ((now - start : ℕ) : ℤ) (max pt.toInt 0) := by
  have hclamp : (BitVec.ofNat 32 (min (now - start) (2 ^ 31 - 1))).toInt =
      ((min (now - start) (2 ^ 31 - 1) : ℕ) : ℤ) := by
    rw [BitVec.toInt_eq_toNat_of_lt] <;> simp only [BitVec.toNat_ofNat] <;> omega
  have hpt : pt.toInt < 2 ^ 31 := BitVec.toInt_lt
  unfold etFromDelta
  rw [minI32_toInt, preset_toInt, hclamp]
  omega

/-- The preset has run out. -/
theorem sle_etFromDelta (start now : ℕ) (pt : BitVec 32) :
    (maxI32 pt 0).sle (etFromDelta start now (maxI32 pt 0)) = true ↔
      max pt.toInt 0 ≤ ((now - start : ℕ) : ℤ) := by
  rw [BitVec.sle_iff_toInt_le, etFromDelta_toInt, preset_toInt]
  omega

/-! ## On-delay -/

namespace Ton

/-- The instance after a trace of samples from cold. -/
def after (trace : List TimerSample) : Ton :=
  trace.foldl (fun t x => (t.eval x.input x.pt x.now).1) Ton.new

theorem after_snoc (trace : List TimerSample) (x : TimerSample) :
    after (trace ++ [x]) = ((after trace).eval x.input x.pt x.now).1 := by
  unfold after
  rw [List.foldl_append, List.foldl_cons, List.foldl_nil]

/-- The time from which a sample with `IN` on counts. -/
def origin (t : Ton) (now : ℕ) : ℕ := if t.running then t.startMs else now

/-- One sample with `IN` on. -/
theorem eval_on (t : Ton) (pt : BitVec 32) (now : ℕ) :
    let out := t.eval true pt now
    out.1.running = true ∧ out.1.startMs = t.origin now ∧
      (out.2.1 = true ↔ max pt.toInt 0 ≤ ((now - t.origin now : ℕ) : ℤ)) ∧
      out.2.2.toInt = min ((now - t.origin now : ℕ) : ℤ) (max pt.toInt 0) := by
  unfold eval origin
  by_cases hrun : t.running = true
  · simp only [hrun, Bool.not_true, Bool.false_eq_true, if_true, if_false, true_and]
    exact ⟨sle_etFromDelta .., by rw [etFromDelta_toInt, preset_toInt]; omega⟩
  · have hzero : (maxI32 pt 0 == 0) = true ↔ max pt.toInt 0 = 0 := by
      rw [beq_iff_eq, ← BitVec.toInt_inj, preset_toInt]
      rfl
    simp only [hrun, Bool.not_false, Bool.false_eq_true, if_true, if_false, true_and,
      Nat.sub_self, hzero]
    exact ⟨by omega, by simp⟩

/-- What the instance remembers of a trace. -/
structure Tracks (trace : List TimerSample) (t : Ton) : Prop where
  running : t.running = true ↔ ∃ b ∈ trace.getLast?, On b
  start : ∀ s, BeganAt On trace s → t.startMs = s.now

/-- The period that counts is the present one. -/
theorem Tracks.origin_eq {trace : List TimerSample} {t : Ton} (h : Tracks trace t)
    {x s : TimerSample} (hs : BeganAt On (trace ++ [x]) s) : t.origin x.now = s.now := by
  unfold origin
  obtain ⟨-, hs | ⟨rfl, hidle⟩⟩ := beganAt_snoc.mp hs
  · have hrun : t.running = true := by
      rw [h.running]
      rcases List.eq_nil_or_concat' trace with rfl | ⟨l, b, rfl⟩
      · exact absurd hs (not_beganAt_nil s)
      · exact ⟨b, by simp, hs.last⟩
    rw [if_pos hrun]
    exact h.start s hs
  · have hrun : ¬t.running = true := by
      rw [h.running]
      rintro ⟨b, hb, hon⟩
      exact hidle b hb hon
    rw [if_neg hrun]

theorem after_tracks (trace : List TimerSample) : Tracks trace (after trace) := by
  induction trace using List.reverseRecOn with
  | nil => exact ⟨by simp [after, Ton.new], fun s hs => absurd hs (not_beganAt_nil s)⟩
  | append_singleton trace x ih =>
      rw [after_snoc]
      by_cases hx : x.input = true
      · obtain ⟨hrun, hstart, -⟩ := eval_on (after trace) x.pt x.now
        rw [hx]
        refine ⟨by simp [hrun, On, hx], fun s hs => ?_⟩
        rw [hstart]
        exact ih.origin_eq hs
      · exact ⟨by simp [eval, hx], fun s hs => absurd hs.last hx⟩

/-- The outputs an on-delay timer owes for the last sample of a trace. -/
structure Law (trace : List TimerSample) (x : TimerSample) (out : Bool × BitVec 32) : Prop where
  q : out.1 = true ↔ ∃ s, BeganAt On (trace ++ [x]) s ∧ x.preset ≤ x.since s
  on : x.input = true →
    ∃ s, BeganAt On (trace ++ [x]) s ∧ out.2.toInt = min (x.since s) x.preset
  off : x.input = false → out.2 = 0

/-- `Q` waits until `IN` has been on for `PT`, and `ET` counts from where it began. -/
theorem timing_law (trace : List TimerSample) (x : TimerSample) :
    Law trace x ((after trace).eval x.input x.pt x.now).2 := by
  by_cases hx : x.input = true
  · obtain ⟨-, -, hq, het⟩ := eval_on (after trace) x.pt x.now
    have horigin : ∀ s, BeganAt On (trace ++ [x]) s →
        (after trace).origin x.now = s.now := fun s => (after_tracks trace).origin_eq
    obtain ⟨s, hs⟩ : ∃ s, BeganAt On (trace ++ [x]) s :=
      exists_beganAt ⟨x, by simp, hx⟩
    rw [horigin s hs] at hq het
    rw [hx]
    refine ⟨hq.trans ⟨fun h => ⟨s, hs, h⟩, ?_⟩, fun _ => ⟨s, hs, het⟩, by simp [hx]⟩
    rintro ⟨s', hs', h⟩
    rwa [hs.unique hs']
  · refine ⟨?_, fun h => absurd h hx, fun _ => by simp [eval, hx]⟩
    simp only [eval, hx, Bool.false_eq_true, if_false, false_iff]
    rintro ⟨s, hs, -⟩
    exact hx hs.last

end Ton

/-! ## Off-delay -/

namespace Tof

/-- The instance after a trace of samples from cold. -/
def after (trace : List TimerSample) : Tof :=
  trace.foldl (fun t x => (t.eval x.input x.pt x.now).1) Tof.new

theorem after_snoc (trace : List TimerSample) (x : TimerSample) :
    after (trace ++ [x]) = ((after trace).eval x.input x.pt x.now).1 := by
  unfold after
  rw [List.foldl_append, List.foldl_cons, List.foldl_nil]

/-- The trace ends with `IN` off since `f`, `IN` was on before `f`, and at no sample since had the
time from `f` reached the `PT` of that sample. -/
def Holding (trace : List TimerSample) (f : TimerSample) : Prop :=
  ∃ pre t post, trace = pre ++ t :: f :: post ∧ t.input = true ∧
    ∀ y ∈ f :: post, y.input = false ∧ y.since f < y.preset

theorem not_holding_nil (f : TimerSample) : ¬Holding [] f := by
  rintro ⟨pre, t, post, h, -⟩
  simp at h

theorem holding_snoc {trace : List TimerSample} {x f : TimerSample} :
    Holding (trace ++ [x]) f ↔ (x.input = false ∧ x.since f < x.preset) ∧
      (Holding trace f ∨ (f = x ∧ ∃ b ∈ trace.getLast?, On b)) := by
  constructor
  · rintro ⟨pre, t, post, h, ht, hpost⟩
    rw [List.append_cons pre t] at h
    rcases snoc_split h with ⟨rfl, rfl, rfl⟩ | ⟨rest, rfl, hl⟩
    · exact ⟨hpost x (List.mem_cons_self ..), .inr ⟨rfl, t, by simp, ht⟩⟩
    · refine ⟨hpost x (by simp), .inl ⟨pre, t, rest, by simpa using hl, ht, fun y hy => hpost y ?_⟩⟩
      rw [← List.cons_append]
      exact List.mem_append_left _ hy
  · rintro ⟨hx, ⟨pre, t, post, rfl, ht, hpost⟩ | ⟨rfl, b, hb, hon⟩⟩
    · refine ⟨pre, t, post ++ [x], by simp, ht, fun y hy => ?_⟩
      rw [← List.cons_append, List.mem_append, List.mem_singleton] at hy
      rcases hy with hy | rfl
      · exact hpost y hy
      · exact hx
    · obtain ⟨pre, rfl⟩ := List.getLast?_eq_some_iff.mp hb
      refine ⟨pre, b, [], by simp, hon, fun y hy => ?_⟩
      rw [List.mem_singleton.mp hy]
      exact hx

/-- A delay runs only while `IN` is off. -/
theorem Holding.last {trace : List TimerSample} {f : TimerSample} (h : Holding trace f) :
    ∀ b ∈ trace.getLast?, ¬On b := by
  intro b hb hon
  obtain ⟨pre, rfl⟩ := List.getLast?_eq_some_iff.mp hb
  simp [On, (holding_snoc.mp h).1.1] at hon

/-- The time from which a sample with `IN` off counts. -/
def origin (t : Tof) (now : ℕ) : ℕ := if t.delaying then t.fallMs else now

/-- One sample with `IN` off. -/
theorem eval_off (t : Tof) (pt : BitVec 32) (now : ℕ) :
    let out := t.eval false pt now
    out.2.1 = out.1.q ∧ (out.1.q = true ↔ (t.q = true ∨ t.delaying = true) ∧
      ((now - t.origin now : ℕ) : ℤ) < max pt.toInt 0) ∧
      (out.1.delaying = true ↔ out.1.q = true) ∧
      (out.1.q = true → out.1.fallMs = t.origin now) := by
  by_cases hheld : (t.q || t.delaying) = true
  · have hout := sle_etFromDelta (t.origin now) now pt
    have hor : t.q = true ∨ t.delaying = true := by simpa using hheld
    by_cases hdone : (maxI32 pt 0).sle (etFromDelta (t.origin now) now (maxI32 pt 0)) = true
    · have hlate := hout.mp hdone
      unfold origin at hdone
      simp only [eval, Bool.false_eq_true, if_false, hheld, if_true, hdone, true_and, hor]
      exact ⟨by simpa only [Bool.false_eq_true, false_iff, not_lt] using hlate, by simp⟩
    · have hearly := mt hout.mpr hdone
      unfold origin at hdone
      simp only [eval, Bool.false_eq_true, if_false, hheld, if_true, hdone, true_and, hor]
      exact ⟨by simpa only [true_iff, not_le] using hearly, by simp [origin]⟩
  · have hor : t.q = false ∧ t.delaying = false := by simpa using hheld
    simp [eval, hor.1, hor.2]

/-- What the instance remembers of a trace. -/
structure Tracks (trace : List TimerSample) (t : Tof) : Prop where
  q : t.q = true ↔ t.delaying = true ∨ ∃ b ∈ trace.getLast?, On b
  delaying : t.delaying = true ↔ ∃ f, Holding trace f
  fall : ∀ f, Holding trace f → t.fallMs = f.now

/-- The delay that counts is the present one. -/
theorem Tracks.origin_eq {trace : List TimerSample} {t : Tof} (h : Tracks trace t)
    {x f : TimerSample} (hf : Holding (trace ++ [x]) f) : t.origin x.now = f.now := by
  unfold origin
  obtain ⟨-, hf | ⟨rfl, b, hb, hon⟩⟩ := holding_snoc.mp hf
  · rw [if_pos (h.delaying.mpr ⟨f, hf⟩)]
    exact h.fall f hf
  · rw [if_neg]
    intro hdel
    obtain ⟨f', hf'⟩ := h.delaying.mp hdel
    exact hf'.last b hb hon

/-- With `IN` off, `Q` stays exactly while a delay runs. -/
theorem Tracks.eval_off {trace : List TimerSample} {t : Tof} (h : Tracks trace t)
    {x : TimerSample} (hx : x.input = false) :
    (t.eval x.input x.pt x.now).1.q = true ↔ ∃ f, Holding (trace ++ [x]) f := by
  rw [hx, (Tof.eval_off t x.pt x.now).2.1]
  constructor
  · rintro ⟨hor, hlt⟩
    unfold origin at hlt
    by_cases hdel : t.delaying = true
    · obtain ⟨f, hf⟩ := h.delaying.mp hdel
      rw [if_pos hdel, h.fall f hf] at hlt
      exact ⟨f, holding_snoc.mpr ⟨⟨hx, hlt⟩, .inl hf⟩⟩
    · have hlast := (h.q.mp (hor.resolve_right hdel)).resolve_left hdel
      rw [if_neg hdel] at hlt
      exact ⟨x, holding_snoc.mpr ⟨⟨hx, hlt⟩, .inr ⟨rfl, hlast⟩⟩⟩
  · rintro ⟨f, hf⟩
    obtain ⟨⟨-, hlt⟩, hheld⟩ := holding_snoc.mp hf
    rw [h.origin_eq hf]
    refine ⟨?_, hlt⟩
    rcases hheld with hf' | ⟨-, hlast⟩
    · exact .inr (h.delaying.mpr ⟨f, hf'⟩)
    · exact .inl (h.q.mpr (.inr hlast))

theorem after_tracks (trace : List TimerSample) : Tracks trace (after trace) := by
  induction trace using List.reverseRecOn with
  | nil =>
      refine ⟨by simp [after, Tof.new], ?_, fun f hf => absurd hf (not_holding_nil f)⟩
      simp [after, Tof.new, not_holding_nil]
  | append_singleton trace x ih =>
      rw [after_snoc]
      by_cases hx : x.input = true
      · have hnone : ∀ f, ¬Holding (trace ++ [x]) f := fun f hf => by
          simp [(holding_snoc.mp hf).1.1] at hx
        refine ⟨by simp [eval, On, hx], by simp [eval, hx, hnone], fun f hf => absurd hf (hnone f)⟩
      · have hoff : x.input = false := by simpa using hx
        obtain ⟨-, -, hdel, hfall⟩ := Tof.eval_off (after trace) x.pt x.now
        have hq := ih.eval_off hoff
        rw [hoff] at hq ⊢
        refine ⟨by simp [hdel, On, hoff], hdel.trans hq, fun f hf => ?_⟩
        rw [hfall (hq.mpr ⟨f, hf⟩)]
        exact ih.origin_eq hf

/-- `Q` follows `IN`, and after it falls stays on until the time since has reached `PT`. -/
theorem timing_law (trace : List TimerSample) (x : TimerSample) :
    ((after trace).eval x.input x.pt x.now).2.1 = true ↔
      x.input = true ∨ ∃ f, Holding (trace ++ [x]) f := by
  by_cases hx : x.input = true
  · simp [eval, hx]
  · rw [or_iff_right hx]
    exact (after_tracks trace).eval_off (by simpa using hx)

end Tof

/-- The timing laws of both delay timers. -/
theorem delay_timing_laws (trace : List TimerSample) (x : TimerSample) :
    Ton.Law trace x ((Ton.after trace).eval x.input x.pt x.now).2 ∧
      (((Tof.after trace).eval x.input x.pt x.now).2.1 = true ↔
        x.input = true ∨ ∃ f, Tof.Holding (trace ++ [x]) f) :=
  ⟨Ton.timing_law trace x, Tof.timing_law trace x⟩

/-! ## Pulses -/

/-- The pulse timer as it is meant: when the last pulse started, and `IN` at the last sample. -/
structure Pulse where
  start : Option ℕ
  prevIn : Bool
  deriving DecidableEq, Repr

namespace Pulse

/-- No pulse yet. -/
def idle : Pulse := ⟨none, false⟩

/-- Less than `PT` has passed since the start of the last pulse. -/
def Active (p : Pulse) (pt : BitVec 32) (now : ℕ) : Prop :=
  ∃ s ∈ p.start, ((now - s : ℕ) : ℤ) < pt.toInt

instance (p : Pulse) (pt : BitVec 32) (now : ℕ) : Decidable (p.Active pt now) := by
  unfold Active
  infer_instance

/-- A rising edge starts a pulse, unless one is in progress. -/
def sample (pt : BitVec 32) (p : Pulse) (x : InputSample) : Pulse where
  start := if x.input = true ∧ p.prevIn = false ∧ ¬p.Active pt x.now then some x.now else p.start
  prevIn := x.input

/-- The pulses of a trace. -/
def after (pt : BitVec 32) (trace : List InputSample) : Pulse :=
  trace.foldl (sample pt) idle

theorem after_snoc (pt : BitVec 32) (trace : List InputSample) (x : InputSample) :
    after pt (trace ++ [x]) = (after pt trace).sample pt x := by
  unfold after
  rw [List.foldl_append, List.foldl_cons, List.foldl_nil]

/-- A sample that starts no pulse. -/
theorem sample_keeps {pt : BitVec 32} {p : Pulse} {x : InputSample}
    (h : ¬(x.input = true ∧ p.prevIn = false ∧ ¬p.Active pt x.now)) :
    p.sample pt x = ⟨p.start, x.input⟩ := by
  unfold sample
  rw [if_neg h]

/-- A sample that starts a pulse, which is then in progress. -/
theorem sample_starts {pt : BitVec 32} (hpt : 0 < pt.toInt) {p : Pulse} {x : InputSample}
    (h : x.input = true ∧ p.prevIn = false ∧ ¬p.Active pt x.now) :
    (p.sample pt x).start = some x.now ∧ (p.sample pt x).Active pt x.now := by
  have hstart : (p.sample pt x).start = some x.now := if_pos h
  exact ⟨hstart, x.now, hstart, by simpa using hpt⟩

end Pulse

namespace Tp

/-- The instance after a trace of samples from cold, all with the same `PT`. -/
def after (pt : BitVec 32) (trace : List InputSample) : Tp :=
  trace.foldl (fun t x => (t.eval x.input pt x.now).1) Tp.new

theorem after_snoc (pt : BitVec 32) (trace : List InputSample) (x : InputSample) :
    after pt (trace ++ [x]) = ((after pt trace).eval x.input pt x.now).1 := by
  unfold after
  rw [List.foldl_append, List.foldl_cons, List.foldl_nil]

/-- The time from which a pulse counts: a rising edge counts only if none is running. -/
def origin (t : Tp) (input : Bool) (now : ℕ) : ℕ :=
  if !t.running && (input && !t.prevIn) then now else t.startMs

/-- One sample with a positive `PT`. -/
theorem eval_spec (t : Tp) (input : Bool) {pt : BitVec 32} (hpt : 0 < pt.toInt) (now : ℕ) :
    let out := t.eval input pt now
    out.2.1 = out.1.q ∧ out.1.q = out.1.running ∧ out.1.prevIn = input ∧
      out.1.startMs = t.origin input now ∧
      (out.1.running = true ↔ (t.running = true ∨ (input = true ∧ t.prevIn = false)) ∧
        ((now - t.origin input now : ℕ) : ℤ) < pt.toInt) := by
  have hzero : ¬maxI32 pt 0 = 0#32 := by
    rw [← BitVec.toInt_inj, preset_toInt, BitVec.toInt_zero]
    omega
  have hdone : ∀ s, (maxI32 pt 0).sle (etFromDelta s now (maxI32 pt 0)) = true ↔
      pt.toInt ≤ ((now - s : ℕ) : ℤ) := by
    intro s
    rw [sle_etFromDelta, max_eq_left hpt.le]
  unfold eval origin
  generalize maxI32 pt 0 = preset at *
  by_cases hedge : (!t.running && (input && !t.prevIn)) = true
  · obtain ⟨hrun, hin, hprev⟩ : t.running = false ∧ input = true ∧ t.prevIn = false := by
      simpa using hedge
    have hfresh := (hdone now).not.mpr (by simpa using hpt)
    simp [advance, hrun, hin, hprev, hzero, hfresh, hpt]
  · by_cases hrun : t.running = true
    · by_cases hlate : preset.sle (etFromDelta t.startMs now preset) = true
      · have := (hdone t.startMs).mp hlate
        simp [advance, hrun, hlate, this]
      · have := (hdone t.startMs).not.mp hlate
        simp [advance, hrun, hlate, not_le.mp this]
    · have hnot : ¬(input = true ∧ t.prevIn = false) := by simpa [hrun] using hedge
      simp [advance, hrun, hnot]

/-- At every sample `Q` is on exactly while a pulse of the trace is in progress, and the pulse in
progress is the last one that the trace started. -/
def Kept (pt : BitVec 32) (trace : List InputSample) : Prop :=
  ∀ pre x, pre ++ [x] <+: trace →
    (((after pt pre).eval x.input pt x.now).2.1 = true ↔
      (Pulse.after pt (pre ++ [x])).Active pt x.now) ∧
    (((after pt pre).eval x.input pt x.now).2.1 = true →
      (Pulse.after pt (pre ++ [x])).start = some ((after pt pre).eval x.input pt x.now).1.startMs)

/-- No rising edge comes at the first sample at which `PT` has passed since the start of the last
pulse. -/
def NoEdgeAtExpiry (pt : BitVec 32) (trace : List InputSample) : Prop :=
  ∀ pre y x, pre ++ [y] ++ [x] <+: trace → y.input = false → x.input = true →
    (Pulse.after pt (pre ++ [y])).Active pt y.now → (Pulse.after pt (pre ++ [y])).Active pt x.now

theorem NoEdgeAtExpiry.of_prefix {pt : BitVec 32} {trace trace' : List InputSample}
    (h : NoEdgeAtExpiry pt trace) (hpre : trace' <+: trace) : NoEdgeAtExpiry pt trace' :=
  fun pre y x hyx => h pre y x (hyx.trans hpre)

/-- What the instance remembers of a trace that ends at `now`. -/
structure Tracks (pt : BitVec 32) (p : Pulse) (now : ℕ) (t : Tp) : Prop where
  prevIn : t.prevIn = p.prevIn
  running : t.running = true ↔ p.Active pt now
  start : t.running = true → p.start = some t.startMs

/-- One sample keeps what is remembered, where no edge meets the end of a pulse; where one does,
`Q` is off although the edge starts a pulse. -/
theorem Tracks.eval {pt : BitVec 32} (hpt : 0 < pt.toInt) {p : Pulse} {t : Tp} {now : ℕ}
    (h : Tracks pt p now t) {x : InputSample} (hnow : now ≤ x.now) :
    ((x.input = true → p.prevIn = false → p.Active pt now → p.Active pt x.now) →
      Tracks pt (p.sample pt x) x.now (t.eval x.input pt x.now).1) ∧
    (¬(x.input = true → p.prevIn = false → p.Active pt now → p.Active pt x.now) →
      ((t.eval x.input pt x.now).2.1 = false ∧ (p.sample pt x).Active pt x.now)) := by
  obtain ⟨hout, hq, hprev, hstart, hrun⟩ := eval_spec t x.input hpt x.now
  by_cases hbusy : t.running = true
  · -- the code goes on with the pulse that it runs, whatever the edge
    have horigin : t.origin x.input x.now = t.startMs := by simp [origin, hbusy]
    have hp := h.start hbusy
    have hactive : p.Active pt x.now ↔ ((x.now - t.startMs : ℕ) : ℤ) < pt.toInt := by
      simp [Pulse.Active, hp]
    rw [horigin, ← hactive] at hrun
    by_cases hedge : x.input = true ∧ p.prevIn = false ∧ ¬p.Active pt x.now
    · refine ⟨fun hno => absurd (hno hedge.1 hedge.2.1 (h.running.mp hbusy)) hedge.2.2, fun _ => ?_⟩
      refine ⟨?_, (Pulse.sample_starts hpt hedge).2⟩
      rw [hout, hq]
      simpa [hedge.2.2] using hrun
    · refine ⟨fun _ => ?_, fun hno => ?_⟩
      · rw [Pulse.sample_keeps hedge]
        refine ⟨hprev, hrun.trans (and_iff_right (.inl hbusy)), fun _ => ?_⟩
        rw [hstart, horigin]
        exact hp
      · push Not at hno
        exact absurd ⟨hno.1, hno.2.1, hno.2.2.2⟩ hedge
  · have hidle : ¬p.Active pt now := mt h.running.mpr hbusy
    have hidle' : ¬p.Active pt x.now := by
      rintro ⟨s, hs, hlt⟩
      exact hidle ⟨s, hs, by omega⟩
    refine ⟨fun _ => ?_, fun hno => absurd (fun _ _ ha => absurd ha hidle) hno⟩
    by_cases hedge : x.input = true ∧ p.prevIn = false
    · obtain ⟨hs, ha⟩ := Pulse.sample_starts hpt ⟨hedge.1, hedge.2, hidle'⟩
      have horigin : t.origin x.input x.now = x.now := by
        simp [origin, hbusy, hedge.1, h.prevIn, hedge.2]
      refine ⟨hprev, ?_, fun _ => by rw [hs, hstart, horigin]⟩
      rw [hrun, horigin, h.prevIn]
      exact iff_of_true ⟨.inr hedge, by simpa using hpt⟩ ha
    · rw [Pulse.sample_keeps fun h' => hedge ⟨h'.1, h'.2.1⟩]
      have hoff : ¬(t.eval x.input pt x.now).1.running = true := by
        rw [hrun, h.prevIn]
        rintro ⟨hr | he, -⟩
        · exact hbusy hr
        · exact hedge he
      exact ⟨hprev, iff_of_false hoff hidle', fun hr => absurd hr hoff⟩

/-- The time of the last sample. -/
def lastNow (trace : List InputSample) : ℕ := (trace.getLast?.map (·.now)).getD 0

/-- `IN` at the last sample. -/
theorem prevIn_after (pt : BitVec 32) (trace : List InputSample) :
    (Pulse.after pt trace).prevIn = (trace.getLast?.map (·.input)).getD false := by
  rcases List.eq_nil_or_concat' trace with rfl | ⟨pre, x, rfl⟩
  · rfl
  · rw [Pulse.after_snoc]
    simp [Pulse.sample]

/-- No edge at expiry, sample by sample. -/
theorem noEdge_snoc {pt : BitVec 32} {trace : List InputSample} {x : InputSample} :
    NoEdgeAtExpiry pt (trace ++ [x]) ↔ NoEdgeAtExpiry pt trace ∧
      (x.input = true → (Pulse.after pt trace).prevIn = false →
        (Pulse.after pt trace).Active pt (lastNow trace) → (Pulse.after pt trace).Active pt x.now) := by
  constructor
  · intro h
    refine ⟨h.of_prefix (List.prefix_append ..), fun hin hprev hact => ?_⟩
    rcases List.eq_nil_or_concat' trace with rfl | ⟨pre, y, rfl⟩
    · obtain ⟨s, hs, -⟩ := hact
      simp [Pulse.after, Pulse.idle] at hs
    · rw [prevIn_after] at hprev
      exact h pre y x List.prefix_rfl (by simpa using hprev) hin (by simpa [lastNow] using hact)
  · rintro ⟨h, hx⟩ pre y z ⟨rest, hrest⟩ hy hz hact
    rcases List.eq_nil_or_concat' rest with rfl | ⟨rest, w, rfl⟩
    · rw [List.append_nil] at hrest
      obtain ⟨rfl, hzx⟩ := List.append_inj' hrest rfl
      obtain rfl := List.singleton_inj.mp hzx
      exact hx hz (by rw [prevIn_after]; simpa using hy) (by simpa [lastNow] using hact)
    · rw [← List.append_assoc] at hrest
      exact h pre y z ⟨rest, (List.append_inj' hrest rfl).1⟩ hy hz hact

/-- Non-decreasing times. -/
abbrev Timed (trace : List InputSample) : Prop := trace.Pairwise (·.now ≤ ·.now)

theorem lastNow_le {trace : List InputSample} {x : InputSample} (h : Timed (trace ++ [x])) :
    lastNow trace ≤ x.now := by
  rcases List.eq_nil_or_concat' trace with rfl | ⟨pre, y, rfl⟩
  · exact Nat.zero_le _
  · have := (List.pairwise_append.mp h).2.2 y (by simp) x (by simp)
    simpa [lastNow] using this

/-- Without an edge at expiry the instance remembers the pulses of the trace. -/
theorem after_tracks {pt : BitVec 32} (hpt : 0 < pt.toInt) {trace : List InputSample}
    (htimed : Timed trace) (hno : NoEdgeAtExpiry pt trace) :
    Tracks pt (Pulse.after pt trace) (lastNow trace) (after pt trace) := by
  induction trace using List.reverseRecOn with
  | nil =>
      refine ⟨rfl, ?_, fun h => by simp [after, Tp.new] at h⟩
      simp [after, Tp.new, Pulse.Active, Pulse.after, Pulse.idle]
  | append_singleton trace x ih =>
      obtain ⟨hno, hx⟩ := noEdge_snoc.mp hno
      have htimed' := (List.pairwise_append.mp htimed).1
      have hstep := ((ih htimed' hno).eval hpt (lastNow_le htimed)).1 hx
      rw [after_snoc, Pulse.after_snoc]
      simpa [lastNow] using hstep

/-- Pulses are neither lost nor retriggered exactly where no rising edge comes at the first sample
after the end of a pulse: such an edge is lost, because the running pulse is looked at before it is
found to have ended. -/
theorem kept_iff {pt : BitVec 32} (hpt : 0 < pt.toInt) {trace : List InputSample}
    (htimed : Timed trace) : Kept pt trace ↔ NoEdgeAtExpiry pt trace := by
  constructor
  · intro hkept
    induction trace using List.reverseRecOn with
    | nil => intro pre y x h; simp at h
    | append_singleton trace x ih =>
        have htimed' := (List.pairwise_append.mp htimed).1
        have hno := ih htimed' fun pre y h => hkept pre y (h.trans (List.prefix_append ..))
        refine noEdge_snoc.mpr ⟨hno, ?_⟩
        by_contra hclash
        obtain ⟨hoff, hact⟩ :=
          ((after_tracks hpt htimed' hno).eval hpt (lastNow_le htimed)).2 hclash
        rw [← Pulse.after_snoc] at hact
        have := (hkept trace x List.prefix_rfl).1.mpr hact
        simp [hoff] at this
  · intro hno pre x hpre
    have htracks := after_tracks hpt (htimed.sublist hpre.sublist) (hno.of_prefix hpre)
    obtain ⟨hout, hq, -⟩ := eval_spec (after pt pre) x.input hpt x.now
    rw [hout, hq, ← after_snoc]
    have hlast : lastNow (pre ++ [x]) = x.now := by simp [lastNow]
    rw [hlast] at htracks
    exact ⟨htracks.running, htracks.start⟩

/-- A pulse that ends before the next edge. -/
theorem kept_iff_two_pulses :
    Kept 100#32 [⟨true, 0⟩, ⟨false, 100⟩, ⟨true, 150⟩] ↔
      NoEdgeAtExpiry 100#32 [⟨true, 0⟩, ⟨false, 100⟩, ⟨true, 150⟩] :=
  kept_iff (by decide) (by decide)

/-- An edge 100 ms after the start of a pulse of 100 ms starts no pulse. -/
theorem edge_at_expiry_lost :
    ¬Kept 100#32 [⟨true, 0⟩, ⟨false, 50⟩, ⟨true, 100⟩] := by
  intro h
  have hq := (h [⟨true, 0⟩, ⟨false, 50⟩] ⟨true, 100⟩ List.prefix_rfl).1
  revert hq
  decide

end Tp

end SoftPlc.Fb
