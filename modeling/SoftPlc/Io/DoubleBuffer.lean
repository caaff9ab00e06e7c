import SoftPlc.Io.Image

/-!
# The double buffer

`plc-io/src/double_buffer.rs`: a writer hands whole snapshots to a reader. `publish` fills the back
buffer, swaps the two under both locks and stores the sequence number before it lets go of them. A
reader clones the front under its lock, and tries again when the number has moved, a bounded number of
times. A swap shows what was filled and nothing else (`front_swap`, `front_fill`), so that a clone is a
snapshot that was published as a whole, also when the attempts run out.
-/

namespace SoftPlc.Io

/-- Source: `double_buffer.rs`, `Snapshot`. -/
structure Snapshot where
  seq : ℕ
  values : List PlcValue
  quality : List Quality
  deriving DecidableEq, Repr

/-- Source: `Snapshot::zeros`. -/
def Snapshot.zeros (n : ℕ) : Snapshot := ⟨0, List.replicate n (.bool false), List.replicate n .good⟩

/-- Source: `double_buffer.rs`, `DoubleBuffer`; `locked` says that the writer holds the lock of the front,
which it does from the swap to the store of the number. -/
structure DoubleBuffer where
  front : Snapshot
  back : Snapshot
  seq : ℕ
  slots : ℕ
  locked : Bool
  deriving DecidableEq, Repr

namespace DoubleBuffer

/-- Source: `DoubleBuffer::new`. -/
def new (slots : ℕ) : DoubleBuffer := ⟨.zeros slots, .zeros slots, 0, slots, false⟩

/-! ## The writer -/

/-- The next number; it wraps around. -/
def next (d : DoubleBuffer) : ℕ := (d.seq + 1) % 2 ^ 64

/-- Fill the back buffer. The writer panics when the lengths are not those of the buffer. Source:
`DoubleBuffer::publish`, up to the end of the inner block. -/
def fill (d : DoubleBuffer) (values : List PlcValue) (quality : List Quality) : Option DoubleBuffer :=
  if values.length = d.slots ∧ quality.length = d.slots then
    some { d with back := ⟨d.next, values, quality⟩ }
  else none

/-- Lock both buffers and swap them. Source: `DoubleBuffer::publish`, `std::mem::swap`. -/
def swap (d : DoubleBuffer) : DoubleBuffer := { d with front := d.back, back := d.front, locked := true }

/-- Store the number and let go of the locks. Source: the end of `DoubleBuffer::publish`. -/
def store (d : DoubleBuffer) (next : ℕ) : DoubleBuffer := { d with seq := next, locked := false }

/-- The writer alone. Source: `DoubleBuffer::publish`. -/
def publish (d : DoubleBuffer) (values : List PlcValue) (quality : List Quality) : Option DoubleBuffer :=
  (d.fill values quality).map fun filled => filled.swap.store d.next

variable {d filled : DoubleBuffer} {values : List PlcValue} {quality : List Quality}

theorem front_fill (h : d.fill values quality = some filled) :
    filled.front = d.front ∧ filled.slots = d.slots ∧ filled.back = ⟨d.next, values, quality⟩ := by
  unfold fill at h
  split_ifs at h
  cases h
  exact ⟨rfl, rfl, rfl⟩

@[simp] theorem front_swap (d : DoubleBuffer) : d.swap.front = d.back := rfl

@[simp] theorem slots_swap (d : DoubleBuffer) : d.swap.slots = d.slots := rfl

@[simp] theorem front_store (d : DoubleBuffer) (next : ℕ) : (d.store next).front = d.front := rfl

@[simp] theorem slots_store (d : DoubleBuffer) (next : ℕ) : (d.store next).slots = d.slots := rfl

/-- The first publication. -/
theorem publish_front {published : DoubleBuffer} (h : d.publish values quality = some published) :
    published.front = ⟨d.next, values, quality⟩ ∧ published.slots = d.slots := by
  obtain ⟨filled, hfill, rfl⟩ := Option.map_eq_some_iff.mp h
  obtain ⟨-, hslots, hback⟩ := front_fill hfill
  exact ⟨hback, hslots⟩

/-! ## The reader -/

/-- Where `read` is. -/
inductive ReadPos where
  /-- About to load the number for the first time, after some attempts. -/
  | load (attempts : ℕ)
  /-- About to clone the front. -/
  | clone (attempts before : ℕ)
  /-- About to load the number again. -/
  | compare (attempts before : ℕ) (snap : Snapshot)
  /-- Done. -/
  | done (snap : Snapshot)
  deriving DecidableEq, Repr

/-- One step of the reader; the clone waits for the lock. Source: `DoubleBuffer::read`, the `loop`. -/
def readStep (d : DoubleBuffer) (maxRetries : ℕ) : ReadPos → Option ReadPos
  | .load attempts => some (.clone attempts d.seq)
  | .clone attempts before => if d.locked then none else some (.compare attempts before d.front)
  | .compare attempts before snap =>
      if before = d.seq ∧ snap.seq = d.seq then some (.done snap)
      else if maxRetries ≤ attempts + 1 then some (.done snap)
      else some (.load (attempts + 1))
  | .done _ => none

/-- The snapshot that a reader holds. -/
def ReadPos.snap : ReadPos → Option Snapshot
  | .compare _ _ snap | .done snap => some snap
  | _ => none

/-- **What a step of the reader holds.** It clones the front, keeps the clone or drops it. -/
theorem readStep_snap {maxRetries : ℕ} {pos pos' : ReadPos} (h : d.readStep maxRetries pos = some pos') :
    (pos.snap = none ∧ pos'.snap = none) ∨
      ((∃ attempts before, pos = .clone attempts before) ∧ pos'.snap = some d.front) ∨
      ((∀ attempts before, pos ≠ .clone attempts before) ∧ ∃ snap, pos.snap = some snap ∧
        (pos'.snap = some snap ∨ pos'.snap = none)) := by
  cases pos with
  | load attempts =>
      cases h
      exact .inl ⟨rfl, rfl⟩
  | clone attempts before =>
      simp only [readStep] at h
      split_ifs at h
      cases h
      exact .inr (.inl ⟨⟨attempts, before, rfl⟩, rfl⟩)
  | compare attempts before snap =>
      refine .inr (.inr ⟨(fun _ _ h => nomatch h), snap, rfl, ?_⟩)
      simp only [readStep] at h
      split_ifs at h <;> cases h
      · exact .inl rfl
      · exact .inl rfl
      · exact .inr rfl
  | done snap => cases h

end DoubleBuffer

end SoftPlc.Io
