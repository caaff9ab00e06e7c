import SoftPlc.Scan.Loader

/-!
# Retain snapshots between two threads

`plc-retain/src/snapshot.rs`, one atomic load or store at a time, in program order and sequentially
consistent: one thread publishes images and one thread reads them. After eight checks that fail a
read gives up and returns what it has copied. `snapshot_untorn` is about the runs in which no read
gives up and no publish stores a number that the reader still has, as it could after `2 ^ 64 - 1`
others.
-/

namespace SoftPlc.Scan

open SoftPlc.Retain

/-! ## The two threads -/

/-- The number after a number. Source: `snapshot.rs`, `wrapping_add(1).max(1)`. -/
def nextNumber (seq : ℕ) : ℕ := max ((seq + 1) % 2 ^ 64) 1

/-- The bytes of a slot after an image was stored into it. Source: `snapshot.rs`, the two `for` loops
of `RetainSnapshotBuffer::publish`. -/
def fitted (size : ℕ) (image : List UInt8) : List UInt8 :=
  image.take size ++ List.replicate (size - image.length) 0

/-- Where the writer stands. Source: `snapshot.rs`, `RetainSnapshotBuffer::publish`. -/
inductive PublishState where
  /-- Between two calls. -/
  | idle
  /-- Before it stores byte `i`, or after the last one, before it loads `seq`. -/
  | storing (image : List UInt8) (back : Slot) (i : ℕ)
  /-- Before it stores `published`. -/
  | stored (back : Slot) (next : ℕ)
  /-- Before it stores `seq`. -/
  | swapped (next : ℕ)
  deriving DecidableEq

/-- Where the reader stands; `attempts` checks have failed. Source: `snapshot.rs`,
`RetainSnapshotBuffer::read`. -/
inductive ReadState where
  /-- Between two calls. -/
  | idle
  /-- Before it loads `seq`. -/
  | started (last : ℕ) (dst : List UInt8) (attempts : ℕ)
  /-- Before it loads `published`. -/
  | numbered (last seq : ℕ) (dst : List UInt8) (attempts : ℕ)
  /-- Before it loads byte `i`, or after the last one, before it loads `seq` again. -/
  | copying (last seq : ℕ) (slot : Slot) (dst : List UInt8) (attempts i : ℕ)
  /-- Before it stores `last_take`. -/
  | taking (seq : ℕ) (dst : List UInt8)
  deriving DecidableEq

/-- What a read that found something returns. -/
structure Taken where
  seq : ℕ
  dst : List UInt8
  deriving DecidableEq

/-- The buffer with its threads. -/
structure SharedSnapshot where
  slots : Slot → List UInt8
  size : ℕ
  seq : ℕ
  published : Slot
  lastTake : ℕ
  writer : PublishState
  reader : ReadState
  /-- The images of all calls of `publish`, in order. -/
  images : List (List UInt8)
  /-- What the calls of `read` returned other than `None`, in order. -/
  results : List Taken

/-- Which thread goes on, with the argument of the call that it starts when it is between calls. -/
inductive Turn where
  | writer (image : List UInt8)
  | reader (dst : List UInt8)
  deriving DecidableEq

namespace SharedSnapshot

/-- A new buffer. Source: `snapshot.rs`, `RetainSnapshotBuffer::new`. -/
def start (size : ℕ) : SharedSnapshot :=
  ⟨fun _ => List.replicate size 0, size, 0, .zero, 0, .idle, .idle, [], []⟩

/-- A byte of a slot. Source: `snapshot.rs`, `self.slots[back][i].store`. -/
def store (s : SharedSnapshot) (slot : Slot) (i : ℕ) (b : UInt8) : SharedSnapshot :=
  { s with slots := fun t => if t = slot then (s.slots slot).set i b else s.slots t }

/-- The next operation of the writer. Source: `snapshot.rs`, the body of
`RetainSnapshotBuffer::publish`. -/
def writerTurn (s : SharedSnapshot) (image : List UInt8) : SharedSnapshot :=
  match s.writer with
  | .idle =>
      { s with writer := .storing image s.published.other 0, images := s.images ++ [image] }
  | .storing image back i =>
      if i < s.size then
        { s.store back i (image.getD i 0) with writer := .storing image back (i + 1) }
      else { s with writer := .stored back (nextNumber s.seq) }
  | .stored back next => { s with published := back, writer := .swapped next }
  | .swapped next => { s with seq := next, writer := .idle }

/-- The next operation of the reader. Source: `snapshot.rs`, the body of
`RetainSnapshotBuffer::read`. -/
def readerTurn (s : SharedSnapshot) (dst : List UInt8) : SharedSnapshot :=
  match s.reader with
  | .idle => { s with reader := .started s.lastTake dst 0 }
  | .started last dst attempts =>
      if s.seq = 0 ∨ s.seq = last then { s with reader := .idle }
      else { s with reader := .numbered last s.seq dst attempts }
  | .numbered last seq dst attempts =>
      { s with reader := .copying last seq s.published dst attempts 0 }
  | .copying last seq slot dst attempts i =>
      if i < min dst.length s.size then
        { s with
          reader := .copying last seq slot (dst.set i ((s.slots slot).getD i 0)) attempts (i + 1) }
      else if seq = s.seq then { s with reader := .taking seq dst }
      else if attempts + 1 ≥ 8 then { s with reader := .taking s.seq dst }
      else { s with reader := .started last dst (attempts + 1) }
  | .taking seq dst =>
      { s with lastTake := seq, reader := .idle, results := s.results ++ [⟨seq, dst⟩] }

/-- The next operation of a thread. -/
def turn (s : SharedSnapshot) : Turn → SharedSnapshot
  | .writer image => s.writerTurn image
  | .reader dst => s.readerTurn dst

/-- An interleaving. -/
def run (s : SharedSnapshot) (turns : List Turn) : SharedSnapshot := turns.foldl turn s

/-- The image of the publish with this number, counted from one. -/
def image (s : SharedSnapshot) : ℕ → Option (List UInt8)
  | 0 => none
  | k + 1 => s.images[k]?

end SharedSnapshot

/-! ## What is promised -/

/-- A destination has the bytes of an image, as many as both have place for. -/
def Shows (size : ℕ) (image dst : List UInt8) : Prop :=
  dst.take size = (fitted size image).take dst.length

/-- A destination and an image of the size of the buffer are equal. -/
theorem shows_exact {size : ℕ} {image dst : List UInt8} (himage : image.length = size)
    (hdst : dst.length = size) : Shows size image dst ↔ dst = image := by
  unfold Shows fitted
  rw [hdst, himage, Nat.sub_self, List.replicate_zero, List.append_nil, List.take_take, Nat.min_self,
    List.take_of_length_le hdst.le, List.take_of_length_le himage.le]

namespace SharedSnapshot

/-- Every read returned an image of one publish, and none an older one than a read before it. -/
def Untorn (s : SharedSnapshot) : Prop :=
  ∃ ks : List ℕ, ks.Pairwise (· ≤ ·) ∧
    List.Forall₂ (fun k r => ∃ image, s.image k = some image ∧ Shows s.size image r.dst) ks s.results

/-- Between two states a read returned the last image. -/
def Delivered (s₀ s : SharedSnapshot) : Prop :=
  ∃ image, s₀.images.getLast? = some image ∧
    ∃ r ∈ s.results.drop s₀.results.length, Shows s.size image r.dst

/-- After a publish that no other follows, a read that starts and returns finds its image read. -/
def LastDelivered (size : ℕ) (turns : List Turn) : Prop :=
  ∀ (before between after : List Turn) (image dst : List UInt8) (next : ℕ),
    turns = before ++ .writer image :: (between ++ .reader dst :: after) →
    ((start size).run before).writer = .swapped next →
    ((start size).run (before ++ .writer image :: between)).reader = .idle →
    ((start size).run turns).reader = .idle →
    ((start size).run turns).images = ((start size).run (before ++ [.writer image])).images →
      Delivered ((start size).run (before ++ [.writer image])) ((start size).run turns)

/-! ## Where it goes wrong -/

/-- The number that the reader loaded last in its call. -/
def held (s : SharedSnapshot) : Option ℕ :=
  match s.reader with
  | .idle | .started _ _ _ => none
  | .numbered _ seq _ _ | .copying _ seq _ _ _ _ | .taking seq _ => some seq

/-- The reader gives up at its next operation: its eighth check fails. -/
def givesUp (s : SharedSnapshot) : Bool :=
  match s.reader with
  | .copying _ seq _ dst attempts i =>
      !decide (i < min dst.length s.size) && seq != s.seq && decide (attempts + 1 ≥ 8)
  | _ => false

/-- The writer stores at its next operation a number that the reader still has. -/
def repeats (s : SharedSnapshot) : Bool :=
  match s.writer with
  | .swapped next => next == s.lastTake || s.held == some next
  | _ => false

/-- No turn of an interleaving lets the reader give up or repeats a number. -/
def orderly (s : SharedSnapshot) : List Turn → Bool
  | [] => true
  | .writer image :: turns => !s.repeats && (s.turn (.writer image)).orderly turns
  | .reader dst :: turns => !s.givesUp && (s.turn (.reader dst)).orderly turns

end SharedSnapshot

/-! ## The numbers and the slots of the publishes -/

/-- The number of a publish, counted from one; before the first the number is zero. -/
def numberOf : ℕ → ℕ
  | 0 => 0
  | j + 1 => nextNumber (numberOf j)

/-- The slot of a publish. -/
def slotOf : ℕ → Slot
  | 0 => .zero
  | j + 1 => (slotOf j).other

theorem numberOf_pos {j : ℕ} (h : 0 < j) : numberOf j ≠ 0 := by
  obtain ⟨j, rfl⟩ := Nat.exists_eq_succ_of_ne_zero h.ne'
  unfold numberOf nextNumber
  omega

theorem slotOf_succ_ne (j : ℕ) : slotOf (j + 1) ≠ slotOf j := Slot.other_ne (slotOf j)

theorem fitted_length (size : ℕ) (image : List UInt8) : (fitted size image).length = size := by
  unfold fitted
  rw [List.length_append, List.length_take, List.length_replicate]
  omega

theorem fitted_getElem? {size i : ℕ} {image : List UInt8} (h : i < size) :
    (fitted size image)[i]? = some (image.getD i 0) := by
  unfold fitted
  rw [List.getElem?_append, List.length_take, List.getElem?_take_of_lt h, List.getD_eq_getElem?_getD]
  by_cases hi : i < image.length
  · rw [if_pos (by omega), List.getElem?_eq_getElem hi]
    rfl
  · rw [if_neg (by omega), List.getElem?_replicate, if_pos (by omega),
      List.getElem?_eq_none (by omega)]
    rfl

/-- One more byte of a list is there. -/
theorem take_set_succ {xs ys : List UInt8} {i : ℕ} {b : UInt8} (h : xs.take i = ys.take i)
    (hi : i < xs.length) (hb : ys[i]? = some b) : (xs.set i b).take (i + 1) = ys.take (i + 1) := by
  rw [List.take_add_one, List.take_set_of_le (le_refl i), h, List.getElem?_set_self hi, List.take_add_one, hb]

/-- A number was loaded when there had been `e` stores of numbers, and none of the later ones stored
it again. -/
structure Loaded (d q e : ℕ) : Prop where
  eq : q = numberOf e
  le : e ≤ d
  fresh : ∀ j, e < j → j ≤ d → numberOf j ≠ q

theorem loaded_self (d : ℕ) : Loaded d (numberOf d) d := ⟨rfl, le_refl d, fun j h h' => by omega⟩

theorem Loaded.succ {d q e : ℕ} (h : Loaded d q e) (hne : numberOf (d + 1) ≠ q) :
    Loaded (d + 1) q e := by
  refine ⟨h.eq, h.le.trans (Nat.le_succ d), ?_⟩
  intro j hj hle
  rcases Nat.lt_or_ge j (d + 1) with hlt | hge
  · exact h.fresh j hj (by omega)
  · rwa [show j = d + 1 by omega]

/-- A number that is still there was loaded last. -/
theorem Loaded.last {d q e : ℕ} (h : Loaded d q e) (hq : q = numberOf d) : e = d := by
  rcases Nat.lt_or_ge e d with hlt | hge
  · exact absurd hq.symm (h.fresh d hlt (le_refl d))
  · exact Nat.le_antisymm h.le hge

/-- The publish whose number was loaded is determined. -/
theorem Loaded.unique {d q e e' : ℕ} (h : Loaded d q e) (h' : Loaded d q e') : e = e' := by
  rcases Nat.lt_trichotomy e e' with hlt | he | hlt
  · exact absurd h'.eq.symm (h.fresh e' hlt h'.le)
  · exact he
  · exact absurd h.eq.symm (h'.fresh e hlt h.le)

/-! ## The invariant -/

namespace SharedSnapshot

variable {s : SharedSnapshot} {d l k : ℕ} {ks : List ℕ}

theorem image_succ (k : ℕ) : s.image (k + 1) = s.images[k]? := rfl

/-- The slot of a publish has its image. -/
def Full (s : SharedSnapshot) (k : ℕ) : Prop :=
  ∀ image, s.image k = some image → s.slots (slotOf k) = fitted s.size image

/-- Where the writer stands after `d` stores of numbers. -/
inductive WriterAt (s : SharedSnapshot) (d : ℕ) : PublishState → Prop
  | idle (hlen : s.images.length = d) (hpublished : s.published = slotOf d) : WriterAt s d .idle
  | storing {image : List UInt8} {i : ℕ} (hlen : s.images.length = d + 1)
      (hpublished : s.published = slotOf d) (himage : s.image (d + 1) = some image)
      (hi : i ≤ s.size)
      (hdone : (s.slots (slotOf (d + 1))).take i = (fitted s.size image).take i) :
      WriterAt s d (.storing image (slotOf (d + 1)) i)
  | stored (hlen : s.images.length = d + 1) (hpublished : s.published = slotOf d)
      (hfull : s.Full (d + 1)) : WriterAt s d (.stored (slotOf (d + 1)) (numberOf (d + 1)))
  | swapped (hlen : s.images.length = d + 1) (hpublished : s.published = slotOf (d + 1))
      (hfull : s.Full (d + 1)) : WriterAt s d (.swapped (numberOf (d + 1)))

/-- What the reader copies while the number that it loaded is there: the slot of that publish, or
that of the next one if the writer is about to store its number. -/
structure Copies (s : SharedSnapshot) (e : ℕ) (slot : Slot) (dst : List UInt8) (i k : ℕ)
    (image : List UInt8) : Prop where
  hwhich : k = e ∨ (k = e + 1 ∧ ∃ next, s.writer = .swapped next)
  himage : s.image k = some image
  hslot : slot = slotOf k
  hbytes : s.slots slot = fitted s.size image
  hdone : dst.take i = (fitted s.size image).take i

/-- Where the reader stands after `d` stores of numbers, with the number of publish `l` taken. -/
inductive ReaderAt (s : SharedSnapshot) (d l : ℕ) : ReadState → Prop
  | idle : ReaderAt s d l .idle
  | started {dst : List UInt8} {attempts : ℕ} : ReaderAt s d l (.started s.lastTake dst attempts)
  | numbered {seq e : ℕ} {dst : List UInt8} {attempts : ℕ} (hload : Loaded d seq e) (hnew : l < e) :
      ReaderAt s d l (.numbered s.lastTake seq dst attempts)
  | copying {seq e i : ℕ} {slot : Slot} {dst : List UInt8} {attempts : ℕ} (hload : Loaded d seq e)
      (hnew : l < e) (hi : i ≤ min dst.length s.size)
      (hcopy : e = d → ∃ k image, s.Copies e slot dst i k image) :
      ReaderAt s d l (.copying s.lastTake seq slot dst attempts i)
  | taking {seq e k : ℕ} {dst image : List UInt8} (hload : Loaded d seq e) (hnew : l < e)
      (hk : k = e ∨ k = e + 1) (himage : s.image k = some image) (hshows : Shows s.size image dst) :
      ReaderAt s d l (.taking seq dst)

/-- After `d` stores of numbers, with the number of publish `l` taken and the images of the publishes
`ks` returned. -/
structure Sound (s : SharedSnapshot) (d l : ℕ) (ks : List ℕ) : Prop where
  seq : s.seq = numberOf d
  size : ∀ slot, (s.slots slot).length = s.size
  full : s.Full d
  writer : s.WriterAt d s.writer
  take : Loaded d s.lastTake l
  reader : s.ReaderAt d l s.reader
  order : ks.Pairwise (· ≤ ·)
  bound : ∀ k ∈ ks, k ≤ l + 1
  results : List.Forall₂ (fun k r => ∃ image, s.image k = some image ∧ Shows s.size image r.dst)
    ks s.results

theorem start_sound (size : ℕ) : (start size).Sound 0 0 [] where
  seq := rfl
  size := fun _ => List.length_replicate
  full := fun image h => by cases h
  writer := .idle rfl rfl
  take := loaded_self 0
  reader := .idle
  order := .nil
  bound := fun k hk => by cases hk
  results := .nil

/-! ## A turn of the writer -/

theorem image_append {image x : List UInt8} (h : s.image k = some image) :
    { s with images := s.images ++ [x] }.image k = some image := by
  rcases k with _ | k
  · cases h
  · rw [image_succ] at h ⊢
    rw [List.getElem?_append_left (List.getElem?_eq_some_iff.mp h).1]
    exact h

theorem image_some (h : 0 < k) (hk : k ≤ s.images.length) : ∃ image, s.image k = some image := by
  obtain ⟨k, rfl⟩ := Nat.exists_eq_succ_of_ne_zero h.ne'
  exact ⟨_, List.getElem?_eq_getElem (by omega)⟩

theorem image_le {image : List UInt8} (h : s.image k = some image) : k ≤ s.images.length := by
  rcases k with _ | k
  · exact Nat.zero_le _
  · exact (List.getElem?_eq_some_iff.mp h).1

/-- The reader stands where it stood. -/
theorem ReaderAt.frame {s s' : SharedSnapshot} {r : ReadState} (h : s.ReaderAt d l r)
    (hlast : s'.lastTake = s.lastTake) (hsize : s'.size = s.size)
    (himage : ∀ k image, s.image k = some image → s'.image k = some image)
    (hcopies : ∀ slot dst i k image, s.Copies d slot dst i k image →
      s'.Copies d slot dst i k image) : s'.ReaderAt d l r := by
  cases h with
  | idle => exact .idle
  | started => exact hlast ▸ .started
  | numbered hload hnew => exact hlast ▸ .numbered hload hnew
  | copying hload hnew hi hcopy =>
      rw [← hlast]
      refine .copying hload hnew (hsize ▸ hi) ?_
      rintro rfl
      obtain ⟨k, image, hc⟩ := hcopy rfl
      exact ⟨k, image, hcopies _ _ _ _ _ hc⟩
  | taking hload hnew hk h hshows => exact .taking hload hnew hk (himage _ _ h) (hsize ▸ hshows)

/-- The images of the results stay. -/
theorem results_frame {s s' : SharedSnapshot} (hsize : s'.size = s.size)
    (himage : ∀ k image, s.image k = some image → s'.image k = some image) {rs : List Taken}
    (h : List.Forall₂ (fun k r => ∃ image, s.image k = some image ∧ Shows s.size image r.dst) ks rs) :
    List.Forall₂ (fun k r => ∃ image, s'.image k = some image ∧ Shows s'.size image r.dst) ks rs := by
  refine h.imp ?_
  rintro k r ⟨image, hk, hshows⟩
  exact ⟨image, himage k image hk, hsize ▸ hshows⟩

/-- A copy of the published slot goes on while the writer does not store into that slot. -/
theorem Copies.frame {s s' : SharedSnapshot} {e i : ℕ} {slot : Slot} {dst image : List UInt8}
    (h : s.Copies e slot dst i k image) (hwriter : ∀ next, s.writer ≠ .swapped next)
    (hsize : s'.size = s.size) (himage : s'.image k = some image)
    (hslot : s'.slots (slotOf e) = s.slots (slotOf e)) : s'.Copies e slot dst i k image := by
  obtain ⟨hwhich, -, rfl, hbytes, hdone⟩ := h
  have hk : k = e := by
    rcases hwhich with hk | ⟨-, next, hnext⟩
    · exact hk
    · exact absurd hnext (hwriter next)
  subst hk
  exact ⟨.inl rfl, himage, rfl, by rw [hslot, hbytes, hsize], hsize ▸ hdone⟩

/-- A call of `publish` starts. -/
theorem Sound.call (h : s.Sound d l ks) (hw : s.writer = .idle) (x : List UInt8) :
    Sound { s with writer := .storing x s.published.other 0, images := s.images ++ [x] } d l ks := by
  have hstage := h.writer
  rw [hw] at hstage
  cases hstage with
  | idle hlen hpublished =>
      have himage : ∀ k image, s.image k = some image →
          { s with
            writer := .storing x s.published.other 0, images := s.images ++ [x] }.image k =
              some image := fun k image hk => image_append hk
      refine
        { seq := h.seq
          size := h.size
          full := ?_
          writer := ?_
          take := h.take
          reader := ?_
          order := h.order
          bound := h.bound
          results := results_frame (by rfl) himage h.results }
      · intro image hk
        apply h.full
        rcases hd : s.image d with _ | image'
        · rcases Nat.eq_zero_or_pos d with rfl | hpos
          · cases hk
          · obtain ⟨image', himage'⟩ := image_some hpos hlen.ge
            rw [hd] at himage'
            cases himage'
        · rw [himage d image' hd] at hk
          exact hk
      · have hback : s.published.other = slotOf (d + 1) := congrArg Slot.other hpublished
        rw [hback]
        refine .storing ?_ hpublished ?_ (Nat.zero_le _) rfl
        · rw [List.length_append, hlen]
          rfl
        · show (s.images ++ [x])[d]? = some x
          rw [← hlen, List.getElem?_concat_length]
      · refine h.reader.frame rfl rfl himage ?_
        intro slot dst i k image hc
        exact hc.frame (fun next hn => by rw [hw] at hn; cases hn) rfl (himage k image hc.himage) rfl

/-- A byte of the image is stored. -/
theorem Sound.byte (h : s.Sound d l ks) {image : List UInt8} {back : Slot} {i : ℕ}
    (hw : s.writer = .storing image back i) (hi : i < s.size) :
    Sound { s.store back i (image.getD i 0) with writer := .storing image back (i + 1) } d l ks := by
  have hstage := h.writer
  rw [hw] at hstage
  cases hstage with
  | storing hlen hpublished himage _ hdone =>
      have hother : ∀ slot, slot ≠ slotOf (d + 1) →
          (s.store (slotOf (d + 1)) i (image.getD i 0)).slots slot = s.slots slot :=
        fun slot hne => if_neg hne
      have hback : (s.store (slotOf (d + 1)) i (image.getD i 0)).slots (slotOf (d + 1)) =
          (s.slots (slotOf (d + 1))).set i (image.getD i 0) := if_pos rfl
      refine
        { seq := h.seq
          size := ?_
          full := ?_
          writer := .storing hlen hpublished himage hi ?_
          take := h.take
          reader := ?_
          order := h.order
          bound := h.bound
          results := h.results }
      · intro slot
        by_cases hslot : slot = slotOf (d + 1)
        · subst hslot
          show ((s.store (slotOf (d + 1)) i (image.getD i 0)).slots _).length = s.size
          rw [hback, List.length_set]
          exact h.size _
        · show ((s.store (slotOf (d + 1)) i (image.getD i 0)).slots slot).length = s.size
          rw [hother slot hslot]
          exact h.size slot
      · intro x hx
        show (s.store (slotOf (d + 1)) i (image.getD i 0)).slots (slotOf d) = _
        rw [hother _ (slotOf_succ_ne d).symm]
        exact h.full x hx
      · show ((s.store (slotOf (d + 1)) i (image.getD i 0)).slots (slotOf (d + 1))).take (i + 1) = _
        rw [hback]
        apply take_set_succ hdone
        · rw [h.size]
          exact hi
        · exact fitted_getElem? hi
      · refine h.reader.frame rfl rfl (fun _ _ hk => hk) ?_
        intro slot dst i k x hc
        exact hc.frame (fun next hn => by rw [hw] at hn; cases hn) rfl hc.himage
          (hother _ (slotOf_succ_ne d).symm)

/-- All bytes are stored, and the number is loaded. -/
theorem Sound.load (h : s.Sound d l ks) {image : List UInt8} {back : Slot} {i : ℕ}
    (hw : s.writer = .storing image back i) (hi : ¬i < s.size) :
    Sound { s with writer := .stored back (nextNumber s.seq) } d l ks := by
  have hstage := h.writer
  rw [hw] at hstage
  cases hstage with
  | storing hlen hpublished himage hle hdone =>
      have hfull : s.Full (d + 1) := by
        intro x hx
        rw [himage] at hx
        cases hx
        have hsize : i = s.size := by omega
        rw [List.take_of_length_le (by rw [h.size, hsize]),
          List.take_of_length_le (by rw [fitted_length, hsize])] at hdone
        exact hdone
      refine
        { seq := h.seq
          size := h.size
          full := h.full
          writer := ?_
          take := h.take
          reader := ?_
          order := h.order
          bound := h.bound
          results := h.results }
      · rw [h.seq]
        exact .stored hlen hpublished hfull
      · refine h.reader.frame rfl rfl (fun _ _ hk => hk) ?_
        intro slot dst i k x hc
        exact hc.frame (fun next hn => by rw [hw] at hn; cases hn) rfl hc.himage rfl

/-- `published` is stored. -/
theorem Sound.swap (h : s.Sound d l ks) {back : Slot} {next : ℕ} (hw : s.writer = .stored back next) :
    Sound { s with published := back, writer := .swapped next } d l ks := by
  have hstage := h.writer
  rw [hw] at hstage
  cases hstage with
  | stored hlen hpublished hfull =>
      refine
        { seq := h.seq
          size := h.size
          full := h.full
          writer := .swapped hlen rfl hfull
          take := h.take
          reader := ?_
          order := h.order
          bound := h.bound
          results := h.results }
      refine h.reader.frame rfl rfl (fun _ _ hk => hk) ?_
      intro slot dst i k x hc
      exact hc.frame (fun next hn => by rw [hw] at hn; cases hn) rfl hc.himage rfl

/-- The number of the publish is stored: the reader does not have it yet. -/
theorem Sound.number (h : s.Sound d l ks) {next : ℕ} (hw : s.writer = .swapped next)
    (hrepeats : s.repeats = false) : Sound { s with seq := next, writer := .idle } (d + 1) l ks := by
  have hstage := h.writer
  unfold repeats at hrepeats
  rw [hw, Bool.or_eq_false_iff, beq_eq_false_iff_ne, beq_eq_false_iff_ne] at hrepeats
  have hheld : ∀ q, s.held = some q → next ≠ q := by
    rintro q hq rfl
    exact hrepeats.2 hq
  rw [hw] at hstage
  cases hstage with
  | swapped hlen hpublished hfull =>
      refine
        { seq := rfl
          size := h.size
          full := hfull
          writer := .idle hlen hpublished
          take := h.take.succ hrepeats.1
          reader := ?_
          order := h.order
          bound := h.bound
          results := h.results }
      have hreader := h.reader
      unfold held at hheld
      show ReaderAt _ (d + 1) l s.reader
      generalize s.reader = r at hreader hheld ⊢
      cases hreader with
      | idle => exact .idle
      | started => exact .started
      | numbered hload hnew => exact .numbered (hload.succ (hheld _ rfl)) hnew
      | copying hload hnew hi hcopy =>
          refine .copying (hload.succ (hheld _ rfl)) hnew hi ?_
          intro he
          have hle := hload.le
          omega
      | taking hload hnew hk himage hshows =>
          exact .taking (hload.succ (hheld _ rfl)) hnew hk himage hshows

/-- **A turn of the writer.** -/
theorem Sound.writerTurn (h : s.Sound d l ks) (hrepeats : s.repeats = false) (x : List UInt8) :
    ∃ d', (s.writerTurn x).Sound d' l ks := by
  unfold SharedSnapshot.writerTurn
  rcases hw : s.writer with _ | ⟨image, back, i⟩ | ⟨back, next⟩ | next
  · exact ⟨d, h.call hw x⟩
  · dsimp only
    split_ifs with hi
    · exact ⟨d, h.byte hw hi⟩
    · exact ⟨d, h.load hw hi⟩
  · exact ⟨d, h.swap hw⟩
  · exact ⟨d + 1, h.number hw hrepeats⟩

/-! ## A turn of the reader -/

/-- The writer stands where it stood. -/
theorem WriterAt.frame {s s' : SharedSnapshot} {w : PublishState} (h : s.WriterAt d w)
    (hslots : s'.slots = s.slots) (hsize : s'.size = s.size) (himages : s'.images = s.images)
    (hpublished : s'.published = s.published) : s'.WriterAt d w := by
  obtain ⟨slots, size, seq, published, lastTake, writer, reader, images, results⟩ := s
  obtain ⟨slots', size', seq', published', lastTake', writer', reader', images', results'⟩ := s'
  dsimp only at hslots hsize himages hpublished
  subst hslots hsize himages hpublished
  cases h with
  | idle hlen hp => exact .idle hlen hp
  | storing hlen hp himage hi hdone => exact .storing hlen hp himage hi hdone
  | stored hlen hp hfull => exact .stored hlen hp hfull
  | swapped hlen hp hfull => exact .swapped hlen hp hfull

/-- Where the reader stands is all that a turn changes. -/
theorem Sound.reads (h : s.Sound d l ks) {r : ReadState} (hreader : s.ReaderAt d l r) :
    Sound { s with reader := r } d l ks where
  seq := h.seq
  size := h.size
  full := h.full
  writer := h.writer.frame rfl rfl rfl rfl
  take := h.take
  reader := hreader.frame rfl rfl (fun _ _ hk => hk) fun _ _ _ _ _ hc =>
    ⟨hc.hwhich, hc.himage, hc.hslot, hc.hbytes, hc.hdone⟩
  order := h.order
  bound := h.bound
  results := h.results

/-- The published slot while the number loaded is there. -/
theorem Sound.copies (h : s.Sound d l ks) (hpos : 0 < d) (dst : List UInt8) :
    ∃ k image, s.Copies d s.published dst 0 k image := by
  have hstage := h.writer
  have hpublished : d ≤ s.images.length → s.published = slotOf d →
      ∃ k image, s.Copies d s.published dst 0 k image := by
    intro hle hp
    obtain ⟨image, himage⟩ := image_some hpos hle
    exact ⟨d, image, .inl rfl, himage, hp, hp ▸ h.full image himage, rfl⟩
  generalize hw : s.writer = w at hstage
  cases hstage with
  | idle hlen hp => exact hpublished hlen.ge hp
  | storing hlen hp _ _ _ => exact hpublished (by omega) hp
  | stored hlen hp _ => exact hpublished (by omega) hp
  | swapped hlen hp hfull =>
      obtain ⟨image, himage⟩ := image_some (s := s) (Nat.succ_pos d) hlen.ge
      exact ⟨d + 1, image, .inr ⟨rfl, _, hw⟩, himage, hp, hp ▸ hfull image himage, rfl⟩

theorem shows_of_take {size : ℕ} {image dst : List UInt8}
    (h : dst.take (min dst.length size) = (fitted size image).take (min dst.length size)) :
    Shows size image dst := by
  have hlen := fitted_length size image
  unfold Shows
  rcases Nat.le_total dst.length size with hle | hle
  · rw [Nat.min_eq_left hle] at h
    rw [List.take_of_length_le hle, ← h, List.take_length]
  · rw [Nat.min_eq_right hle] at h
    rw [h, List.take_of_length_le hlen.le, List.take_of_length_le (hlen.le.trans hle)]

/-- A read returns. -/
theorem Sound.taken (h : s.Sound d l ks) {seq e k : ℕ} {dst image : List UInt8}
    (hload : Loaded d seq e) (hnew : l < e) (hk : k = e ∨ k = e + 1)
    (himage : s.image k = some image) (hshows : Shows s.size image dst) :
    Sound { s with lastTake := seq, reader := .idle, results := s.results ++ [⟨seq, dst⟩] } d e
      (ks ++ [k]) where
  seq := h.seq
  size := h.size
  full := h.full
  writer := h.writer.frame rfl rfl rfl rfl
  take := hload
  reader := .idle
  order := by
    rw [List.pairwise_append]
    refine ⟨h.order, List.pairwise_singleton _ _, ?_⟩
    intro j hj k' hk'
    rw [List.mem_singleton.mp hk']
    have hle := h.bound j hj
    omega
  bound := by
    intro j hj
    rcases List.mem_append.mp hj with hj | hj
    · have hle := h.bound j hj
      omega
    · rw [List.mem_singleton.mp hj]
      omega
  results := List.rel_append h.results (.cons ⟨image, himage, hshows⟩ .nil)

/-- The first load of the number finds a new one. -/
theorem Sound.fresh (h : s.Sound d l ks) (hne : s.seq ≠ s.lastTake) : l < d := by
  rcases Nat.lt_or_ge l d with hlt | hge
  · exact hlt
  · have hl : l = d := Nat.le_antisymm h.take.le hge
    rw [hl] at h
    exact absurd (h.seq.trans h.take.eq.symm) hne

/-- **A turn of the reader.** -/
theorem Sound.readerTurn (h : s.Sound d l ks) (hgives : s.givesUp = false) (dst : List UInt8) :
    ∃ l' ks', (s.readerTurn dst).Sound d l' ks' := by
  have hreader := h.reader
  unfold SharedSnapshot.readerTurn
  generalize hr : s.reader = r at hreader
  cases hreader with
  | idle => exact ⟨l, ks, h.reads .started⟩
  | @started dst attempts =>
      dsimp only
      split_ifs with hold
      · exact ⟨l, ks, h.reads .idle⟩
      · have hnew := h.fresh (not_or.mp hold).2
        have hload : Loaded d s.seq d := h.seq ▸ loaded_self d
        exact ⟨l, ks, h.reads (.numbered hload hnew)⟩
  | @numbered seq e dst attempts hload hnew =>
      refine ⟨l, ks, h.reads (.copying hload hnew (Nat.zero_le _) ?_)⟩
      rintro rfl
      exact h.copies (Nat.zero_lt_of_lt hnew) dst
  | @copying seq e i slot dst attempts hload hnew hi hcopy =>
      dsimp only
      split_ifs with hlt hsame hlast
      · refine ⟨l, ks, h.reads (.copying hload hnew ?_ ?_)⟩
        · rw [List.length_set]
          exact hlt
        · intro he
          obtain ⟨k, image, hc⟩ := hcopy he
          obtain ⟨hdst, hsize⟩ := Nat.lt_min.mp hlt
          refine ⟨k, image, hc.hwhich, hc.himage, hc.hslot, hc.hbytes, ?_⟩
          apply take_set_succ hc.hdone hdst
          have hbyte := @fitted_getElem? s.size i image hsize
          rw [hc.hbytes, List.getD_eq_getElem?_getD, hbyte]
          rfl
      · have he := hload.last (hsame.trans h.seq)
        obtain ⟨k, image, hc⟩ := hcopy he
        have hall : i = min dst.length s.size := by omega
        have hdone := hc.hdone
        rw [hall] at hdone
        have hk : k = e ∨ k = e + 1 := hc.hwhich.imp_right And.left
        exact ⟨l, ks, h.reads (.taking hload hnew hk hc.himage (shows_of_take hdone))⟩
      · unfold givesUp at hgives
        rw [hr] at hgives
        simp [hlt, hsame, hlast] at hgives
      · exact ⟨l, ks, h.reads .started⟩
  | taking hload hnew hk himage hshows => exact ⟨_, _, h.taken hload hnew hk himage hshows⟩

/-! ## Runs -/

theorem run_nil : s.run [] = s := rfl

theorem run_cons (t : Turn) (turns : List Turn) : s.run (t :: turns) = (s.turn t).run turns := rfl

theorem run_append (turns turns' : List Turn) : s.run (turns ++ turns') = (s.run turns).run turns' :=
  List.foldl_append

theorem orderly_writer {x : List UInt8} {turns : List Turn} :
    s.orderly (.writer x :: turns) = true ↔
      s.repeats = false ∧ (s.writerTurn x).orderly turns = true := by
  show (!s.repeats && (s.writerTurn x).orderly turns) = true ↔ _
  rw [Bool.and_eq_true, Bool.not_eq_true']

theorem orderly_reader {dst : List UInt8} {turns : List Turn} :
    s.orderly (.reader dst :: turns) = true ↔
      s.givesUp = false ∧ (s.readerTurn dst).orderly turns = true := by
  show (!s.givesUp && (s.readerTurn dst).orderly turns) = true ↔ _
  rw [Bool.and_eq_true, Bool.not_eq_true']

theorem orderly_append {turns turns' : List Turn} (h : s.orderly (turns ++ turns') = true) :
    s.orderly turns = true ∧ (s.run turns).orderly turns' = true := by
  induction turns generalizing s with
  | nil => exact ⟨rfl, h⟩
  | cons t turns ih =>
      rcases t with x | dst
      · obtain ⟨hfirst, hrest⟩ := orderly_writer.mp h
        exact ⟨orderly_writer.mpr ⟨hfirst, (ih hrest).1⟩, (ih hrest).2⟩
      · obtain ⟨hfirst, hrest⟩ := orderly_reader.mp h
        exact ⟨orderly_reader.mpr ⟨hfirst, (ih hrest).1⟩, (ih hrest).2⟩

/-- **Every state of an orderly run is sound.** -/
theorem Sound.run (h : s.Sound d l ks) {turns : List Turn} (horderly : s.orderly turns = true) :
    ∃ d' l' ks', (s.run turns).Sound d' l' ks' := by
  induction turns generalizing s d l ks with
  | nil => exact ⟨d, l, ks, h⟩
  | cons t turns ih =>
      rcases t with x | dst
      · obtain ⟨hrepeats, hrest⟩ := orderly_writer.mp horderly
        obtain ⟨d', h'⟩ := h.writerTurn hrepeats x
        exact ih h' hrest
      · obtain ⟨hgives, hrest⟩ := orderly_reader.mp horderly
        obtain ⟨l', ks', h'⟩ := h.readerTurn hgives dst
        exact ih h' hrest

theorem Sound.untorn (h : s.Sound d l ks) : s.Untorn := ⟨ks, h.order, h.results⟩

/-! ## The last image -/

/-- The read under way has, or will have, the number of publish `d`. -/
def Bound (d : ℕ) : ReadState → Prop
  | .idle => False
  | .started _ _ _ => True
  | .numbered _ seq _ _ | .copying _ seq _ _ _ _ | .taking seq _ => seq = numberOf d

theorem readerTurn_images (dst : List UInt8) : (s.readerTurn dst).images = s.images := by
  unfold readerTurn
  split
  all_goals
    try split_ifs
    all_goals rfl

theorem readerTurn_size (dst : List UInt8) : (s.readerTurn dst).size = s.size := by
  unfold readerTurn
  split
  all_goals
    try split_ifs
    all_goals rfl

theorem images_length_le (t : Turn) : s.images.length ≤ (s.turn t).images.length := by
  rcases t with x | dst
  · show s.images.length ≤ (s.writerTurn x).images.length
    unfold writerTurn
    split
    · dsimp only
      rw [List.length_append]
      exact Nat.le_add_right _ _
    · split_ifs
      · exact le_refl _
      · exact le_refl _
    · exact le_refl _
    · exact le_refl _
  · show s.images.length ≤ (s.readerTurn dst).images.length
    rw [readerTurn_images]

theorem images_length_le_run (turns : List Turn) :
    s.images.length ≤ (s.run turns).images.length := by
  induction turns generalizing s with
  | nil => exact le_refl _
  | cons t turns ih => exact (images_length_le t).trans ih

/-- Other operations than the last one of a read leave what is taken. -/
theorem readerTurn_lastTake (hnot : ∀ seq dst, s.reader ≠ .taking seq dst) (dst : List UInt8) :
    (s.readerTurn dst).lastTake = s.lastTake := by
  unfold readerTurn
  split
  case h_5 seq dst hr => exact absurd hr (hnot seq dst)
  all_goals
    try split_ifs
    all_goals rfl

theorem Bound.turn (h : s.Sound d l ks) (hl : l < d) (hbound : Bound d s.reader)
    (hnot : ∀ seq dst, s.reader ≠ .taking seq dst) (dst : List UInt8) :
    Bound d (s.readerTurn dst).reader := by
  have hreader := h.reader
  unfold readerTurn
  generalize hr : s.reader = r at hreader hbound
  cases hreader with
  | idle => exact hbound.elim
  | started =>
      have hpos : s.seq ≠ 0 := h.seq ▸ numberOf_pos (Nat.zero_lt_of_lt hl)
      have hnew : s.seq ≠ s.lastTake := h.seq ▸ h.take.fresh d hl (le_refl d)
      dsimp only
      rw [if_neg (not_or.mpr ⟨hpos, hnew⟩)]
      exact h.seq
  | numbered => exact hbound
  | copying =>
      dsimp only
      split_ifs with hlt hsame hlast
      · exact hbound
      · exact hbound
      · exact absurd (Eq.trans hbound h.seq.symm) hsame
      · exact trivial
  | taking => exact absurd hr (hnot _ _)

/-- **A read finds an image that is not taken**, after which no other is published. -/
theorem Sound.finds (h : s.Sound d l ks) (hlen : s.images.length = d) {image : List UInt8}
    (himage : s.image d = some image) (hl : l < d) (hgives : s.givesUp = false) (dst : List UInt8) :
    ∃ l' ks', (s.readerTurn dst).Sound d l' ks' ∧
      ((l' < d ∧ (Bound d s.reader → Bound d (s.readerTurn dst).reader)) ∨
        ∃ r, (s.readerTurn dst).results = s.results ++ [r] ∧ Shows s.size image r.dst) := by
  obtain ⟨l', ks', h'⟩ := h.readerTurn hgives dst
  refine ⟨l', ks', h', ?_⟩
  by_cases htaking : ∃ seq dst, s.reader = .taking seq dst
  · obtain ⟨seq, copied, hr⟩ := htaking
    have hturn : s.readerTurn dst =
        { s with lastTake := seq, reader := .idle, results := s.results ++ [⟨seq, copied⟩] } := by
      unfold SharedSnapshot.readerTurn
      rw [hr]
    have hreader := h.reader
    have htake := h'.take
    rw [hturn] at htake
    rw [hr] at hreader ⊢
    cases hreader with
    | @taking _ e k _ image' hload hnew hk himage' hshows =>
        obtain rfl := htake.unique hload
        rw [hturn]
        by_cases he : l' = d
        · have hle := image_le himage'
          have hkd : k = d := by omega
          rw [hkd, himage] at himage'
          cases himage'
          exact .inr ⟨_, rfl, hshows⟩
        · have hlt : l' < d := Nat.lt_of_le_of_ne hload.le he
          exact .inl ⟨hlt, fun hb => absurd (hload.last hb) he⟩
  · have hnot : ∀ seq dst, s.reader ≠ .taking seq dst := fun seq dst hr => htaking ⟨seq, dst, hr⟩
    have hlast := readerTurn_lastTake hnot dst
    have htake := h'.take
    rw [hlast] at htake
    obtain rfl := htake.unique h.take
    exact .inl ⟨hl, fun hb => hb.turn h hl hnot dst⟩

/-- After the publish of an image and no other: a read has returned it since there were `base`
results, or it is not taken yet and the reader stands in some place. -/
structure Waits (base d : ℕ) (image : List UInt8) (place : ReadState → Prop) (s : SharedSnapshot) :
    Prop where
  hlen : s.images.length = d
  himage : s.image d = some image
  hbase : base ≤ s.results.length
  hwaits : ∃ l ks, s.Sound d l ks ∧ ((l < d ∧ place s.reader) ∨
    ∃ r ∈ s.results.drop base, Shows s.size image r.dst)

theorem Sound.writer_idle (h : s.Sound d l ks) (hlen : s.images.length = d) : s.writer = .idle := by
  have hstage := h.writer
  generalize s.writer = w at hstage
  cases hstage with
  | idle => rfl
  | storing hlen' _ _ _ _ => omega
  | stored hlen' _ _ => omega
  | swapped hlen' _ _ => omega

theorem mem_drop_prefix {base : ℕ} {rs rs' : List Taken} {r : Taken} (h : rs <+: rs')
    (hbase : base ≤ rs.length) (hr : r ∈ rs.drop base) : r ∈ rs'.drop base := by
  obtain ⟨more, rfl⟩ := h
  rw [List.drop_append_of_le_length hbase]
  exact List.mem_append_left _ hr

variable {base : ℕ} {image : List UInt8} {place : ReadState → Prop}

theorem results_front (dst : List UInt8) :
    s.results <+: (s.readerTurn dst).results := by
  unfold SharedSnapshot.readerTurn
  split
  all_goals
    try split_ifs
    all_goals first
      | exact List.prefix_refl _
      | exact List.prefix_append _ _

theorem Waits.turn (h : s.Waits base d image place) (hgives : s.givesUp = false)
    (hplace : ∀ r r', (Bound d r → Bound d r') → place r → place r') (dst : List UInt8) :
    (s.readerTurn dst).Waits base d image place := by
  obtain ⟨hlen, himage, hbase, l, ks, hs, hwaits⟩ := h
  have hprefix := @results_front s dst
  have hsize := @readerTurn_size s dst
  have hlen' : (s.readerTurn dst).images.length = d := by rw [readerTurn_images, hlen]
  have himage' : (s.readerTurn dst).image d = some image := by
    unfold SharedSnapshot.image
    rw [readerTurn_images]
    exact himage
  refine ⟨hlen', himage', hbase.trans hprefix.length_le, ?_⟩
  rcases hwaits with ⟨hl, hp⟩ | ⟨r, hr, hshows⟩
  · obtain ⟨l', ks', hs', hwaits' | ⟨r, hresults, hshows⟩⟩ := hs.finds hlen himage hl hgives dst
    · exact ⟨l', ks', hs', .inl ⟨hwaits'.1, hplace _ _ hwaits'.2 hp⟩⟩
    · refine ⟨l', ks', hs', .inr ⟨r, ?_, hsize ▸ hshows⟩⟩
      rw [hresults, List.drop_append_of_le_length hbase]
      exact List.mem_append_right _ (List.mem_singleton_self r)
  · obtain ⟨l', ks', hs'⟩ := hs.readerTurn hgives dst
    exact ⟨l', ks', hs', .inr ⟨r, mem_drop_prefix hprefix hbase hr, hsize ▸ hshows⟩⟩

theorem Waits.run (h : s.Waits base d image place)
    (hplace : ∀ r r', (Bound d r → Bound d r') → place r → place r') {turns : List Turn}
    (horderly : s.orderly turns = true) (hquiet : (s.run turns).images.length = d) :
    (s.run turns).Waits base d image place := by
  induction turns generalizing s with
  | nil => exact h
  | cons t turns ih =>
      rcases t with x | dst
      · -- A turn of the writer would start another publish.
        obtain ⟨l, ks, hs, -⟩ := h.hwaits
        have hidle := hs.writer_idle h.hlen
        have hgrows : (s.turn (.writer x)).images.length = d + 1 := by
          show (s.writerTurn x).images.length = d + 1
          unfold writerTurn
          rw [hidle]
          dsimp only
          rw [List.length_append, h.hlen]
          rfl
        have hle := images_length_le_run (s := s.turn (.writer x)) turns
        rw [run_cons] at hquiet
        omega
      · obtain ⟨hgives, hrest⟩ := orderly_reader.mp horderly
        exact ih (h.turn hgives hplace dst) hrest hquiet

/-- **Runs whose reads do not give up are not torn.** Every read that finds something returns the
image of one publish, and none an older one than a read before it; the image of the last publish is
returned by a read that starts and returns after it or by one under way. -/
theorem snapshot_untorn (size : ℕ) (turns : List Turn)
    (horderly : (start size).orderly turns = true) :
    ((start size).run turns).Untorn ∧ LastDelivered size turns := by
  refine ⟨?_, ?_⟩
  · obtain ⟨d, l, ks, hs⟩ := (start_sound size).run horderly
    exact hs.untorn
  · intro before between after x dst next hturns hswapped hidle hreturned hquiet
    rw [hturns] at horderly hreturned hquiet ⊢
    obtain ⟨hbefore, horderly⟩ := orderly_append horderly
    obtain ⟨hrepeats, horderly⟩ := orderly_writer.mp horderly
    obtain ⟨hbetween, horderly⟩ := orderly_append horderly
    obtain ⟨hgives, hafter⟩ := orderly_reader.mp horderly
    obtain ⟨d, l, ks, hs⟩ := (start_sound size).run hbefore
    simp only [run_append, run_cons, run_nil] at hidle hreturned hquiet ⊢
    generalize (start size).run before = s at *
    -- The turn stores the number of the publish.
    have hdone : s.turn (.writer x) = { s with seq := next, writer := .idle } := by
      show s.writerTurn x = _
      unfold writerTurn
      rw [hswapped]
    have hs' : (s.turn (.writer x)).Sound (d + 1) l ks := hdone ▸ hs.number hswapped hrepeats
    have hlen : (s.turn (.writer x)).images.length = d + 1 := by
      have hidle' : (s.turn (.writer x)).writer = .idle := by rw [hdone]
      have hstage := hs'.writer
      rw [hidle'] at hstage
      cases hstage with
      | idle hlen => exact hlen
    change (s.turn (.writer x)).orderly between = true at hbetween
    change ((s.turn (.writer x)).run between).givesUp = false at hgives
    change (((s.turn (.writer x)).run between).turn (.reader dst)).orderly after = true at hafter
    generalize s.turn (.writer x) = s₀ at *
    obtain ⟨image, himage⟩ := image_some (s := s₀) (Nat.succ_pos d) hlen.ge
    have hl : l < d + 1 := Nat.lt_succ_of_le hs.take.le
    have hwaits : s₀.Waits s₀.results.length (d + 1) image (fun _ => True) :=
      ⟨hlen, himage, le_refl _, l, ks, hs', .inl ⟨hl, trivial⟩⟩
    -- No other publish starts before the read, nor while it runs.
    have hend : ((s₀.run between).readerTurn dst).images.length = d + 1 := by
      have h₁ := images_length_le_run (s := s₀) between
      have h₂ := images_length_le_run (s := (s₀.run between).readerTurn dst) after
      have h₃ := congrArg List.length hquiet
      rw [readerTurn_images] at h₂ ⊢
      change (((s₀.run between).readerTurn dst).run after).images.length = _ at h₃
      omega
    have hmid := hwaits.run (fun _ _ _ h => h) hbetween (by rw [← hend, readerTurn_images])
    -- The read starts there, and from then on it is bound to find the image if none did before.
    have hstarts : ((s₀.run between).turn (.reader dst)).Waits s₀.results.length (d + 1) image
        (Bound (d + 1)) := by
      obtain ⟨l₁, ks₁, hs₁, hwaits₁⟩ := hmid.hwaits
      have hcall : (s₀.run between).turn (.reader dst) =
          { s₀.run between with reader := .started (s₀.run between).lastTake dst 0 } := by
        show (s₀.run between).readerTurn dst = _
        unfold readerTurn
        rw [hidle]
      rw [hcall]
      exact ⟨hmid.hlen, hmid.himage, hmid.hbase, l₁, ks₁, hs₁.reads .started,
        hwaits₁.imp_left fun h => ⟨h.1, trivial⟩⟩
    have hlast := hstarts.run (fun _ _ h => h) hafter (by rw [hquiet, hlen])
    obtain ⟨l₂, ks₂, -, ⟨-, hbound⟩ | ⟨r, hr, hshows⟩⟩ := hlast.hwaits
    · rw [hreturned] at hbound
      exact hbound.elim
    · refine ⟨image, ?_, r, hr, hshows⟩
      rw [List.getLast?_eq_getElem?, hlen]
      exact himage

/-! ## Whole calls -/

/-- The buffer of the runtime, with both threads between calls. -/
def ofBuffer (b : RetainSnapshotBuffer) (images : List (List UInt8)) (results : List Taken) :
    SharedSnapshot :=
  ⟨b.slots, b.size, b.seq, b.published, b.lastTake, .idle, .idle, images, results⟩

/-- The bytes of an image are stored one after the other. -/
theorem storing_run {x image : List UInt8} {back : Slot} {i n : ℕ}
    (hw : s.writer = .storing image back i) (hn : i + n = s.size)
    (hlen : (s.slots back).length = s.size)
    (hdone : (s.slots back).take i = (fitted s.size image).take i) :
    s.run (List.replicate n (.writer x)) =
      { s with
        slots := fun t => if t = back then fitted s.size image else s.slots t
        writer := .storing image back s.size } := by
  induction n generalizing s i with
  | zero =>
      obtain ⟨slots, size, seq, published, lastTake, writer, reader, images, results⟩ := s
      dsimp only at hw hn hlen hdone ⊢
      rw [Nat.add_zero] at hn
      subst hn hw
      have hslot : slots back = fitted i image := by
        rwa [List.take_of_length_le hlen.le, List.take_of_length_le (fitted_length _ _).le] at hdone
      have hslots : slots = fun t => if t = back then fitted i image else slots t := by
        funext t
        by_cases ht : t = back
        · rw [if_pos ht, ht, hslot]
        · rw [if_neg ht]
      rw [List.replicate_zero, run_nil, ← hslots]
  | succ n ih =>
      have hi : i < s.size := by omega
      have hturn : s.turn (.writer x) =
          { s.store back i (image.getD i 0) with writer := .storing image back (i + 1) } := by
        show s.writerTurn x = _
        unfold writerTurn
        rw [hw]
        exact if_pos hi
      have hback : (s.store back i (image.getD i 0)).slots back =
          (s.slots back).set i (image.getD i 0) := if_pos rfl
      rw [List.replicate_succ, run_cons, hturn]
      refine (ih rfl ?_ ?_ ?_).trans ?_
      · show i + 1 + n = s.size
        omega
      · show ((s.store back i (image.getD i 0)).slots back).length = s.size
        rw [hback, List.length_set, hlen]
      · show ((s.store back i (image.getD i 0)).slots back).take (i + 1) = _
        rw [hback]
        exact take_set_succ hdone (hlen ▸ hi) (fitted_getElem? hi)
      · have hslots : (fun t => if t = back then fitted s.size image
            else (s.store back i (image.getD i 0)).slots t) =
            fun t => if t = back then fitted s.size image else s.slots t := by
          funext t
          by_cases ht : t = back
          · rw [if_pos ht, if_pos ht]
          · rw [if_neg ht, if_neg ht]
            exact if_neg ht
        rw [← hslots]
        rfl

/-- **A publish that is not interrupted.** -/
theorem publish_run (b : RetainSnapshotBuffer) (hlen : ∀ slot, (b.slots slot).length = b.size)
    (images : List (List UInt8)) (results : List Taken) (x : List UInt8) :
    (ofBuffer b images results).run (List.replicate (b.size + 4) (.writer x)) =
      ofBuffer (b.publish x) (images ++ [x]) results := by
  have hturns : List.replicate (b.size + 4) (Turn.writer x) =
      .writer x :: (List.replicate b.size (.writer x) ++ List.replicate 3 (.writer x)) := by
    rw [← List.replicate_add]
    rfl
  have hstart : (ofBuffer b images results).turn (.writer x) =
      ⟨b.slots, b.size, b.seq, b.published, b.lastTake, .storing x b.published.other 0, .idle,
        images ++ [x], results⟩ := rfl
  have hbytes : SharedSnapshot.run ⟨b.slots, b.size, b.seq, b.published, b.lastTake,
      .storing x b.published.other 0, .idle, images ++ [x], results⟩
      (List.replicate b.size (.writer x)) = _ :=
    storing_run rfl (Nat.zero_add _) (hlen _) rfl
  have hload : ∀ s : SharedSnapshot, s.writer = .storing x b.published.other s.size →
      s.turn (.writer x) = { s with writer := .stored b.published.other (nextNumber s.seq) } := by
    intro s hw
    show s.writerTurn x = _
    unfold writerTurn
    rw [hw]
    exact if_neg (lt_irrefl _)
  rw [hturns, run_cons, run_append, hstart, hbytes]
  show (SharedSnapshot.run _ [.writer x, .writer x, .writer x]) = _
  rw [run_cons, hload _ rfl]
  rfl

/-- The bytes of a slot are copied one after the other. -/
theorem copying_run {x dst : List UInt8} {last seq attempts i n : ℕ} {slot : Slot}
    (hr : s.reader = .copying last seq slot ((s.slots slot).take i ++ dst.drop i) attempts i)
    (hn : i + n = min dst.length s.size) (hlen : (s.slots slot).length = s.size) :
    s.run (List.replicate n (.reader x)) =
      { s with
        reader := .copying last seq slot ((s.slots slot).take (i + n) ++ dst.drop (i + n)) attempts
          (i + n) } := by
  induction n generalizing s i with
  | zero =>
      obtain ⟨slots, size, seq', published, lastTake, writer, reader, images, results⟩ := s
      dsimp only at hr hlen
      subst hr
      rfl
  | succ n ih =>
      have hi : i < min dst.length s.size := by omega
      obtain ⟨hdst, hsize⟩ := Nat.lt_min.mp hi
      have hslot : i < (s.slots slot).length := hlen ▸ hsize
      have htake : ((s.slots slot).take i).length = i := List.length_take_of_le hslot.le
      have hshort : ((s.slots slot).take i ++ dst.drop i).length = dst.length := by
        rw [List.length_append, htake, List.length_drop]
        omega
      have hset : ((s.slots slot).take i ++ dst.drop i).set i ((s.slots slot).getD i 0) =
          (s.slots slot).take (i + 1) ++ dst.drop (i + 1) := by
        rw [List.set_append_right _ _ htake.le, htake, Nat.sub_self,
          List.drop_eq_getElem_cons hdst, List.set_cons_zero, List.take_succ_eq_append_getElem hslot,
          List.append_assoc, List.getD_eq_getElem?_getD, List.getElem?_eq_getElem hslot]
        rfl
      have hturn : s.turn (.reader x) =
          { s with
            reader := .copying last seq slot ((s.slots slot).take (i + 1) ++ dst.drop (i + 1))
              attempts (i + 1) } := by
        show s.readerTurn x = _
        unfold readerTurn
        rw [hr]
        dsimp only
        rw [hshort, if_pos hi, hset]
      rw [List.replicate_succ, run_cons, hturn]
      refine (@ih { s with
        reader := .copying last seq slot ((s.slots slot).take (i + 1) ++ dst.drop (i + 1)) attempts
          (i + 1) } (i + 1) rfl ?_ hlen).trans ?_
      · show i + 1 + n = min dst.length s.size
        omega
      · rw [show i + 1 + n = i + (n + 1) by omega]

/-- **A read that is not interrupted**, of a destination of zeros. -/
theorem read_run (b b' : RetainSnapshotBuffer) (hlen : ∀ slot, (b.slots slot).length = b.size)
    (images : List (List UInt8)) (results : List Taken) {n : ℕ} {bytes : List UInt8}
    (hread : b.read n = some (bytes, b')) :
    (ofBuffer b images results).run
        (List.replicate (min n b.size + 5) (.reader (List.replicate n 0))) =
      ofBuffer b' images (results ++ [⟨b.seq, bytes⟩]) := by
  unfold RetainSnapshotBuffer.read at hread
  split_ifs at hread with hunread
  cases hread
  have hnew : ¬(b.seq = 0 ∨ b.seq = b.lastTake) := by
    simpa [RetainSnapshotBuffer.unread] using hunread
  have hturns : List.replicate (min n b.size + 5) (Turn.reader (List.replicate n 0)) =
      [.reader (List.replicate n 0), .reader (List.replicate n 0), .reader (List.replicate n 0)] ++
        (List.replicate (min n b.size) (.reader (List.replicate n 0)) ++
          [.reader (List.replicate n 0), .reader (List.replicate n 0)]) := by
    rw [show min n b.size + 5 = 3 + (min n b.size + 2) by omega, List.replicate_add,
      List.replicate_add]
    rfl
  have hstart : (ofBuffer b images results).run [.reader (List.replicate n 0),
      .reader (List.replicate n 0), .reader (List.replicate n 0)] =
      ⟨b.slots, b.size, b.seq, b.published, b.lastTake, .idle,
        .copying b.lastTake b.seq b.published (List.replicate n 0) 0 0, images, results⟩ := by
    rw [run_cons, run_cons, run_cons, run_nil]
    have hload : ((ofBuffer b images results).turn (.reader (List.replicate n 0))).turn
        (.reader (List.replicate n 0)) =
        { ofBuffer b images results with
          reader := .numbered b.lastTake b.seq (List.replicate n 0) 0 } := if_neg hnew
    rw [hload]
    rfl
  have hcopy : SharedSnapshot.run ⟨b.slots, b.size, b.seq, b.published, b.lastTake, .idle,
      .copying b.lastTake b.seq b.published (List.replicate n 0) 0 0, images, results⟩
      (List.replicate (min n b.size) (.reader (List.replicate n 0))) = _ :=
    @copying_run _ _ (List.replicate n 0) _ _ _ 0 _ _ rfl
      (by rw [Nat.zero_add, List.length_replicate]) (hlen _)
  have hcheck : ∀ s : SharedSnapshot, ∀ (last attempts i : ℕ) (slot : Slot) (dst x : List UInt8),
      s.reader = .copying last s.seq slot dst attempts i → ¬i < min dst.length s.size →
        s.turn (.reader x) = { s with reader := .taking s.seq dst } := by
    intro s last attempts i slot dst x hr hi
    show s.readerTurn x = _
    unfold readerTurn
    rw [hr]
    dsimp only
    rw [if_neg hi, if_pos rfl]
  have hslot : (b.slots b.published).length = b.size := hlen _
  have hbytes : (b.slots b.published).take (0 + min n b.size) ++
      (List.replicate n (0 : UInt8)).drop (0 + min n b.size) =
      (b.slots b.published).take (min n b.size) ++
        List.replicate (n - ((b.slots b.published).take (min n b.size)).length) 0 := by
    rw [Nat.zero_add, List.drop_replicate, List.length_take, hslot]
    congr 2
    omega
  have hfull : ¬0 + min n b.size < min ((b.slots b.published).take (0 + min n b.size) ++
      (List.replicate n (0 : UInt8)).drop (0 + min n b.size)).length b.size := by
    rw [Nat.zero_add, List.length_append, List.length_take, List.length_drop, List.length_replicate,
      hslot]
    omega
  rw [hturns, run_append, run_append, hstart, hcopy, run_cons, hcheck _ _ _ _ _ _ _ rfl hfull, hbytes]
  rfl

/-- Two bytes are published and read. -/
def pairTurns : List Turn :=
  List.replicate 6 (Turn.writer [1, 2]) ++ List.replicate 7 (Turn.reader [0, 0])

theorem snapshot_untorn_pair : (start 2).orderly pairTurns = true ∧
    ((start 2).run pairTurns).results = [⟨1, [1, 2]⟩] ∧ ((start 2).run pairTurns).Untorn :=
  ⟨by decide +kernel, by decide +kernel, (snapshot_untorn 2 pairTurns (by decide +kernel)).1⟩

instance (size : ℕ) (image dst : List UInt8) : Decidable (Shows size image dst) :=
  decidable_of_iff (dst.take size = (fitted size image).take dst.length) Iff.rfl

/-- Every result is some image. -/
theorem Untorn.mem (h : s.Untorn) : ∀ r ∈ s.results, ∃ image ∈ s.images, Shows s.size image r.dst := by
  obtain ⟨ks, -, hresults⟩ := h
  intro r hr
  generalize s.results = results at hresults hr
  induction hresults with
  | nil => cases hr
  | @cons k r' ks rs hkr _ ih =>
      rcases List.mem_cons.mp hr with rfl | hr
      · obtain ⟨image, himage, hshows⟩ := hkr
        rcases k with _ | k
        · cases himage
        · exact ⟨image, List.mem_of_getElem? himage, hshows⟩
      · exact ih hr

/-- A publish of two equal bytes. -/
def publishTurns (b : UInt8) : List Turn := List.replicate 6 (Turn.writer [b, b])

/-- A check that fails: a publish comes between the loads of the number. -/
def failTurns (b : UInt8) : List Turn :=
  Turn.reader [0, 0] :: (publishTurns b ++ List.replicate 4 (Turn.reader [0, 0]))

/-- Seven checks fail, and at the eighth attempt the second publish after the load of `published`
stores its first byte between the two that are copied. -/
def tearingTurns : List Turn :=
  publishTurns 1 ++ [Turn.reader [0, 0]] ++ [2, 3, 4, 5, 6, 7, 8].flatMap failTurns ++
    List.replicate 2 (Turn.reader [0, 0]) ++ publishTurns 9 ++
    List.replicate 2 (Turn.writer [10, 10]) ++ List.replicate 4 (Turn.reader [0, 0])

/-- **The eighth check tears.** -/
theorem eighth_check_tears :
    ¬∀ (size : ℕ) (turns : List Turn),
      ((start size).run turns).Untorn ∧ LastDelivered size turns := by
  intro h
  have hmem := (h 2 tearingTurns).1.mem ⟨9, [10, 8]⟩ (by decide +kernel)
  revert hmem
  decide +kernel

end SharedSnapshot

end SoftPlc.Scan
