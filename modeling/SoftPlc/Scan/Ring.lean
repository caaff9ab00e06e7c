import SoftPlc.Scan.Telemetry
import Mathlib.Logic.Relation

/-!
# The telemetry ring between two threads

`plc-scan/src/spsc.rs`, one operation at a time. The producer tries the lock and gives its sample up
when it is refused; the consumer waits for the lock. `Conserved` accounts for every sample at every
instant, the ones in the hands of the two threads included, and `ring_conserves` reads it where both
are between calls.
-/

namespace SoftPlc.Scan

variable {α : Type}

/-! ## The two threads -/

/-- Where the producer stands. Source: `spsc.rs`, `SpscProducer::push_drop_oldest`. -/
inductive PushState (α : Type) where
  /-- Between two calls. -/
  | idle
  /-- The lock was refused, and the drop is not counted yet. -/
  | refused
  /-- It holds the lock, before the test of the length. -/
  | locked (value : α)
  /-- It took the oldest sample out, and the drop is not counted yet. -/
  | evicted (value : α)
  /-- Before `push_back`. -/
  | room (value : α)
  /-- Before it releases the lock. -/
  | stored
  deriving DecidableEq

/-- Where the consumer stands. Source: `spsc.rs`, `SpscConsumer::try_recv`. -/
inductive RecvState (α : Type) where
  /-- Between two calls, or waiting for the lock. -/
  | idle
  /-- It holds the lock, before `pop_front`. -/
  | locked
  /-- Before it releases the lock and returns. -/
  | popped (sample : Option α)
  deriving DecidableEq

/-- The ring with its threads. -/
structure SharedRing (α : Type) where
  ring : SpscRing α
  producer : PushState α
  consumer : RecvState α
  /-- The values of all calls of `push_drop_oldest`, in order. -/
  pushed : List α
  /-- The samples that `try_recv` has returned, in order. -/
  received : List α

namespace PushState

/-- Whether the producer holds the lock. -/
def holdsLock : PushState α → Bool
  | .idle | .refused => false
  | .locked _ | .evicted _ | .room _ | .stored => true

/-- The value that is not in the queue yet. -/
def pending : PushState α → List α
  | .locked value | .evicted value | .room value => [value]
  | .idle | .refused | .stored => []

/-- Samples in the hands of the producer: its own, and one whose drop is not counted. -/
def underway : PushState α → ℕ
  | .idle | .stored => 0
  | .refused | .locked _ | .room _ => 1
  | .evicted _ => 2

end PushState

/-- The sample in the hands of the consumer. -/
def RecvState.held : RecvState α → List α
  | .idle | .locked => []
  | .popped sample => sample.toList

/-- The counter as an operator reads it. Source: `spsc.rs`, `SpscConsumer::drops`. -/
def SpscRing.dropsRead (r : SpscRing α) : UInt64 := UInt64.ofNat r.drops

namespace SharedRing

/-- A new ring. Source: `spsc.rs`, `channel`. -/
def start (capacity : ℕ) : SharedRing α := ⟨.channel capacity, .idle, .idle, [], []⟩

/-- Samples in the hands of the two threads. -/
def underway (s : SharedRing α) : ℕ := s.producer.underway + s.consumer.held.length

/-- One operation of one thread. Source: `spsc.rs`, the bodies of `push_drop_oldest` and
`try_recv`. -/
inductive Step (s : SharedRing α) : SharedRing α → Prop
  /-- `try_lock` fails. -/
  | refuse (value : α) (hp : s.producer = .idle) :
      Step s { s with producer := .refused, pushed := s.pushed ++ [value] }
  /-- The drop of the refused sample is counted. -/
  | countRefused (hp : s.producer = .refused) :
      Step s { s with
        producer := .idle, ring := { s.ring with drops := s.ring.drops + 1 } }
  /-- `try_lock` succeeds. -/
  | lock (value : α) (hp : s.producer = .idle) (hfree : s.consumer = .idle) :
      Step s { s with producer := .locked value, pushed := s.pushed ++ [value] }
  /-- The ring is full. -/
  | evict {value : α} (hp : s.producer = .locked value) (hfull : s.ring.q.length ≥ s.ring.cap) :
      Step s { s with
        producer := .evicted value, ring := { s.ring with q := s.ring.q.tail } }
  /-- The drop of the oldest sample is counted. -/
  | countEvicted {value : α} (hp : s.producer = .evicted value) :
      Step s { s with
        producer := .room value, ring := { s.ring with drops := s.ring.drops + 1 } }
  /-- The ring is not full. -/
  | fits {value : α} (hp : s.producer = .locked value) (hfull : ¬s.ring.q.length ≥ s.ring.cap) :
      Step s { s with producer := .room value }
  /-- `push_back`. -/
  | store {value : α} (hp : s.producer = .room value) :
      Step s { s with
        producer := .stored, ring := { s.ring with q := s.ring.q ++ [value] } }
  /-- The producer releases the lock. -/
  | release (hp : s.producer = .stored) : Step s { s with producer := .idle }
  /-- The consumer gets the lock. -/
  | acquire (hc : s.consumer = .idle) (hfree : s.producer.holdsLock = false) :
      Step s { s with consumer := .locked }
  /-- `pop_front`. -/
  | pop (hc : s.consumer = .locked) :
      Step s { s with
        consumer := .popped s.ring.q.head?, ring := { s.ring with q := s.ring.q.tail } }
  /-- The consumer releases the lock and returns. -/
  | give {sample : Option α} (hc : s.consumer = .popped sample) :
      Step s { s with consumer := .idle, received := s.received ++ sample.toList }

/-- What an interleaving can reach. -/
abbrev Run : SharedRing α → SharedRing α → Prop := Relation.ReflTransGen Step

end SharedRing

/-! ## Accounting -/

namespace SharedRing

/-- Every sample is received, counted as dropped, queued or in the hands of a thread, and none
overtakes another. -/
structure Conserved (s : SharedRing α) : Prop where
  count : s.pushed.length =
    s.received.length + s.ring.drops + s.ring.q.length + s.underway
  bound : s.ring.q.length ≤ s.ring.cap
  /-- `push_back` finds room. -/
  fits : s.producer.pending ≠ [] → (∀ value, s.producer ≠ .locked value) →
    s.ring.q.length < s.ring.cap
  pos : 0 < s.ring.cap
  order : (s.received ++ s.consumer.held ++ s.ring.q ++ s.producer.pending).Sublist s.pushed

variable {s t : SharedRing α} {capacity : ℕ}

theorem start_conserved (capacity : ℕ) : (start capacity : SharedRing α).Conserved where
  count := rfl
  bound := Nat.zero_le _
  fits := fun h => absurd rfl h
  pos := Nat.lt_of_lt_of_le Nat.one_pos (Nat.le_max_right _ _)
  order := List.Sublist.refl _

theorem head?_append_tail (q : List α) : q.head?.toList ++ q.tail = q := by
  cases q <;> rfl

theorem length_head?_add_tail (q : List α) : q.head?.toList.length + q.tail.length = q.length := by
  rw [← List.length_append, head?_append_tail]

/-- **Every operation conserves samples.** -/
theorem Step.conserved (h : Step s t) (hs : s.Conserved) : t.Conserved := by
  obtain ⟨hcount, hbound, hfits, hpos, horder⟩ := hs
  unfold underway at hcount
  cases h with
  | refuse value hp =>
      rw [hp] at hcount horder
      refine ⟨?_, hbound, fun hne => absurd rfl hne, hpos, ?_⟩
      · unfold underway
        simp only [PushState.underway, List.length_append, List.length_singleton] at hcount ⊢
        omega
      · exact horder.trans (List.sublist_append_left _ _)
  | countRefused hp =>
      rw [hp] at hcount horder
      refine ⟨?_, hbound, fun hne => absurd rfl hne, hpos, horder⟩
      unfold underway
      simp only [PushState.underway] at hcount ⊢
      omega
  | lock value hp hfree =>
      rw [hp] at hcount horder
      refine ⟨?_, hbound, fun _ hnot => absurd rfl (hnot value), hpos, ?_⟩
      · unfold underway
        simp only [PushState.underway, List.length_append, List.length_singleton] at hcount ⊢
        omega
      · simp only [PushState.pending, List.append_nil] at horder ⊢
        exact horder.append (List.Sublist.refl _)
  | @evict value hp hfull =>
      rw [hp] at hcount horder
      have htail : s.ring.q.tail.length + 1 = s.ring.q.length := by
        rw [List.length_tail]
        omega
      refine ⟨?_, by dsimp only; omega, fun _ _ => by dsimp only; omega, hpos, ?_⟩
      · unfold underway
        simp only [PushState.underway] at hcount ⊢
        omega
      · refine List.Sublist.trans ?_ horder
        exact ((List.Sublist.refl _).append (List.tail_sublist _)).append (List.Sublist.refl _)
  | @countEvicted value hp =>
      rw [hp] at hcount horder
      have hroom := hfits (by rw [hp]; exact List.cons_ne_nil _ _) fun v hv => by
        rw [hp] at hv
        cases hv
      refine ⟨?_, hbound, fun _ _ => hroom, hpos, horder⟩
      unfold underway
      simp only [PushState.underway] at hcount ⊢
      omega
  | fits hp hfull =>
      rw [hp] at hcount horder
      exact ⟨hcount, hbound, fun _ _ => Nat.lt_of_not_le hfull, hpos, horder⟩
  | @store value hp =>
      rw [hp] at hcount horder
      have hroom := hfits (by rw [hp]; exact List.cons_ne_nil _ _) fun v hv => by
        rw [hp] at hv
        cases hv
      refine ⟨?_, ?_, fun hne => absurd rfl hne, hpos, ?_⟩
      · unfold underway
        simp only [PushState.underway, List.length_append, List.length_singleton] at hcount ⊢
        omega
      · simp only [List.length_append, List.length_singleton]
        omega
      · simp only [PushState.pending, List.append_nil, ← List.append_assoc] at horder ⊢
        exact horder
  | release hp =>
      rw [hp] at hcount horder
      exact ⟨hcount, hbound, fun hne => absurd rfl hne, hpos, horder⟩
  | acquire hc hfree =>
      rw [hc] at horder
      unfold RecvState.held at hcount
      rw [hc] at hcount
      exact ⟨hcount, hbound, hfits, hpos, horder⟩
  | pop hc =>
      have hlen := length_head?_add_tail s.ring.q
      rw [hc] at hcount horder
      have hshort : s.ring.q.tail.length ≤ s.ring.q.length := by omega
      refine ⟨?_, hshort.trans hbound, fun hne hnot => hshort.trans_lt (hfits hne hnot), hpos, ?_⟩
      · unfold underway
        simp only [RecvState.held, List.length_nil] at hcount ⊢
        omega
      · simp only [RecvState.held, List.append_nil] at horder ⊢
        rw [List.append_assoc s.received, head?_append_tail]
        exact horder
  | @give sample hc =>
      rw [hc] at hcount horder
      refine ⟨?_, hbound, hfits, hpos, ?_⟩
      · unfold underway
        simp only [RecvState.held, List.length_append, List.length_nil] at hcount ⊢
        omega
      · simp only [RecvState.held, List.append_nil] at horder ⊢
        exact horder

theorem Run.conserved (h : Run (start capacity) s) : s.Conserved := by
  induction h with
  | refl => exact start_conserved capacity
  | tail _ hstep ih => exact hstep.conserved ih

theorem Step.cap (h : Step s t) : t.ring.cap = s.ring.cap := by
  cases h <;> rfl

theorem Run.cap (h : Run (start capacity) s) : s.ring.cap = max capacity 1 := by
  induction h with
  | refl => rfl
  | tail _ hstep ih => exact hstep.cap.trans ih

end SharedRing

/-! ## Whole calls -/

namespace SharedRing

variable {s t : SharedRing α} {capacity : ℕ}

/-- A call that is refused. -/
theorem refused_run (hp : s.producer = .idle) (value : α) :
    Run s { s with ring := s.ring.pushDropOldest true value, pushed := s.pushed ++ [value] } := by
  have hcall : Run s { s with producer := .refused, pushed := s.pushed ++ [value] } :=
    .single (.refuse value hp)
  have hend := hcall.tail (.countRefused rfl)
  rcases s with ⟨ring, producer, consumer, pushed, received⟩
  cases hp
  exact hend

/-- A call that gets the lock. -/
theorem push_run (hp : s.producer = .idle) (hc : s.consumer = .idle) (value : α) :
    Run s { s with ring := s.ring.pushDropOldest false value, pushed := s.pushed ++ [value] } := by
  have hcall : Run s { s with producer := .locked value, pushed := s.pushed ++ [value] } :=
    .single (.lock value hp hc)
  rcases s with ⟨ring, producer, consumer, pushed, received⟩
  cases hp
  by_cases hfull : ring.q.length ≥ ring.cap
  · have hend := (((hcall.tail (.evict rfl hfull)).tail (.countEvicted rfl)).tail
      (.store rfl)).tail (.release rfl)
    simp only [SpscRing.pushDropOldest, Bool.false_eq_true, if_false, if_pos hfull]
    exact hend
  · have hend := ((hcall.tail (.fits rfl hfull)).tail (.store rfl)).tail (.release rfl)
    simp only [SpscRing.pushDropOldest, Bool.false_eq_true, if_false, if_neg hfull]
    exact hend

/-- A receive. -/
theorem recv_run (hp : s.producer = .idle) (hc : s.consumer = .idle) :
    Run s { s with
      ring := s.ring.tryRecv.2, received := s.received ++ s.ring.tryRecv.1.toList } := by
  have hcall : Run s { s with consumer := .locked } :=
    .single (.acquire hc (by rw [hp]; rfl))
  have hend := (hcall.tail (.pop rfl)).tail (.give rfl)
  rcases s with ⟨⟨q, cap, drops⟩, producer, consumer, pushed, received⟩
  cases hc
  rcases q with _ | ⟨value, q⟩
  · exact hend
  · exact hend

/-- The ring of a feed between two publications. -/
def ofFeed (f : Feed) (pushed : List TelemetrySample) : SharedRing TelemetrySample :=
  ⟨f.ring, .idle, .idle, pushed, f.received⟩

theorem recvs_run (n : ℕ) (f : Feed) (pushed : List TelemetrySample) :
    Run (ofFeed f pushed) (ofFeed (Feed.recv^[n] f) pushed) := by
  induction n generalizing f with
  | zero => exact .refl
  | succ n ih =>
      rw [Function.iterate_succ_apply]
      refine Relation.ReflTransGen.trans ?_ (ih f.recv)
      have hrun := recv_run (s := ofFeed f pushed) rfl rfl
      rcases f with ⟨⟨_ | ⟨value, q⟩, cap, drops⟩, received⟩
      · simpa [ofFeed, SpscRing.tryRecv, Feed.recv] using hrun
      · exact hrun

/-- A publication of the scan is such a run. -/
theorem publish_run (f : Feed) (turn : PushTurn) (sample : TelemetrySample)
    (pushed : List TelemetrySample) :
    Run (ofFeed f pushed) (ofFeed (f.push turn sample) (pushed ++ [sample])) := by
  refine (recvs_run turn.recvs f pushed).trans ?_
  rcases turn with ⟨n, locked⟩
  cases locked with
  | true => exact refused_run rfl sample
  | false => exact push_run rfl rfl sample

/-- **The ring conserves samples.** At every instant of every interleaving the values pushed are
those received, those counted as dropped, those queued and those in the hands of a thread; between
calls no thread has one. The queue is never longer than the ring, and samples arrive in the order in
which they were pushed, each at most once. -/
theorem ring_conserves (h : Run (start capacity) s) :
    s.pushed.length = s.received.length + s.ring.drops + s.ring.q.length + s.underway ∧
      (s.producer = .idle → s.consumer = .idle →
        s.pushed.length = s.received.length + s.ring.drops + s.ring.q.length) ∧
      s.ring.q.length ≤ max capacity 1 ∧ s.received.Sublist s.pushed ∧
      (s.pushed.Nodup → s.received.Nodup) ∧
      s.ring.dropsRead.toNat = s.ring.drops % 2 ^ 64 := by
  have hs := Run.conserved h
  have horder : s.received.Sublist s.pushed := by
    refine List.Sublist.trans ?_ hs.order
    rw [List.append_assoc, List.append_assoc]
    exact List.sublist_append_left _ _
  refine ⟨hs.count, ?_, h.cap ▸ hs.bound, horder, fun hnodup => hnodup.sublist horder, ?_⟩
  · intro hp hc
    have hcount := hs.count
    unfold underway at hcount
    rw [hp, hc] at hcount
    exact hcount
  · exact UInt64.toNat_ofNat'

/-- Three pushes into a ring of one, the last of them refused, and a receive. -/
theorem ring_conserves_one : ∃ s : SharedRing ℕ, Run (start 0) s ∧ s.pushed = [1, 2, 3] ∧
    s.received = [2] ∧ s.ring.drops = 2 ∧
    s.pushed.length = s.received.length + s.ring.drops + s.ring.q.length := by
  have h₁ : Run (start 0 : SharedRing ℕ) _ := push_run rfl rfl 1
  have h₂ := h₁.trans (push_run rfl rfl 2)
  have h₃ := h₂.trans (refused_run rfl 3)
  have h₄ := h₃.trans (recv_run rfl rfl)
  exact ⟨_, h₄, rfl, rfl, rfl, (ring_conserves h₄).2.1 rfl rfl⟩

end SharedRing

end SoftPlc.Scan
