import Mathlib.Tactic

/-!
# Histories read backwards

A history is a list of events, the newest last. `Since p q l` is the past operator of temporal
logic: some event of `l` has `p`, and every later one has `q`. `EachAt p f l` says that `f` holds of
what came before each event that `p` selects. `beforeLast p l` is what came before the last event
that has `p`; it only grows (`beforeLast_mono`). `BeganAt p l x` names the first event of the
unbroken period of `p` that `l` ends with. They grow one event at a time (`since_snoc`,
`EachAt.snoc`, `beforeLast_snoc`, `beganAt_snoc`), which is how a run extends its history.
-/

namespace SoftPlc.Lib

variable {α β : Type*}

/-- An event of a history that grew is the new one, or one of the old history. -/
theorem snoc_split {l pre post : List α} {a x : α} (h : l ++ [a] = pre ++ x :: post) :
    (l = pre ∧ a = x ∧ post = []) ∨ ∃ rest, post = rest ++ [a] ∧ l = pre ++ x :: rest := by
  induction post using List.reverseRecOn with
  | nil =>
      obtain ⟨hl, ha⟩ := List.append_inj' h rfl
      exact .inl ⟨hl, List.singleton_inj.mp ha, rfl⟩
  | append_singleton rest b _ =>
      rw [← List.cons_append, ← List.append_assoc] at h
      obtain ⟨hl, ha⟩ := List.append_inj' h rfl
      exact .inr ⟨rest, by rw [List.singleton_inj.mp ha], hl⟩

/-- Some event has `p`, and every later one has `q`. -/
def Since (p q : α → Prop) (l : List α) : Prop :=
  ∃ pre x post, l = pre ++ x :: post ∧ p x ∧ ∀ y ∈ post, q y

theorem not_since_nil (p q : α → Prop) : ¬ Since p q [] := by
  rintro ⟨pre, x, post, h, -, -⟩
  simp at h

/-- One more event either starts the period or continues it. -/
theorem since_snoc {p q : α → Prop} {l : List α} {a : α} :
    Since p q (l ++ [a]) ↔ p a ∨ (q a ∧ Since p q l) := by
  constructor
  · rintro ⟨pre, x, post, h, hp, hq⟩
    rcases snoc_split h with ⟨-, rfl, -⟩ | ⟨rest, rfl, hl⟩
    · exact .inl hp
    · exact .inr ⟨hq a (by simp), pre, x, rest, hl, hp, fun y hy => hq y (by simp [hy])⟩
  · rintro (hp | ⟨hq, pre, x, post, rfl, hp, hpost⟩)
    · exact ⟨l, a, [], rfl, hp, fun y hy => absurd hy List.not_mem_nil⟩
    · refine ⟨pre, x, post ++ [a], by simp, hp, fun y hy => ?_⟩
      rcases List.mem_append.mp hy with hy | hy
      · exact hpost y hy
      · rw [List.mem_singleton.mp hy]
        exact hq

/-- More events either contain the period or continue it. -/
theorem since_append {p q : α → Prop} {l l' : List α} :
    Since p q (l ++ l') ↔ Since p q l' ∨ ((∀ y ∈ l', q y) ∧ Since p q l) := by
  induction l' using List.reverseRecOn with
  | nil => simp [not_since_nil]
  | append_singleton l' a ih =>
      rw [← List.append_assoc, since_snoc, since_snoc, ih]
      simp only [List.mem_append, List.mem_singleton]
      constructor
      · rintro (hp | ⟨hq, h | ⟨hall, h⟩⟩)
        · exact .inl (.inl hp)
        · exact .inl (.inr ⟨hq, h⟩)
        · refine .inr ⟨?_, h⟩
          rintro y (hy | rfl)
          · exact hall y hy
          · exact hq
      · rintro ((hp | ⟨hq, h⟩) | ⟨hall, h⟩)
        · exact .inl hp
        · exact .inr ⟨hq, .inl h⟩
        · exact .inr ⟨hall a (.inr rfl), .inr ⟨fun y hy => hall y (.inl hy), h⟩⟩

/-- `f` holds of the history before each selected event. -/
def EachAt (p : β → α) (f : List α → β → Prop) (l : List α) : Prop :=
  ∀ pre b post, l = pre ++ p b :: post → f pre b

variable {p : β → α} {f : List α → β → Prop} {l : List α}

theorem EachAt.nil : EachAt p f [] := by
  intro pre b post h
  simp at h

/-- One more event. -/
theorem EachAt.snoc {a : α} (h : EachAt p f l) (ha : ∀ b, a = p b → f l b) :
    EachAt p f (l ++ [a]) := by
  intro pre b post hsplit
  rcases snoc_split hsplit with ⟨rfl, hb, -⟩ | ⟨rest, -, hl⟩
  · exact ha b hb
  · exact h pre b rest hl

/-- More events, of which none is selected. -/
theorem EachAt.append {l' : List α} (h : EachAt p f l) (hl' : ∀ b, p b ∉ l') :
    EachAt p f (l ++ l') := by
  induction l' using List.reverseRecOn with
  | nil => rwa [List.append_nil]
  | append_singleton l' a ih =>
      rw [← List.append_assoc]
      apply (ih fun b hb => hl' b (List.mem_append_left _ hb)).snoc
      rintro b rfl
      exact absurd (List.mem_append_right _ (List.mem_singleton_self _)) (hl' b)

/-- What came before the last event that has `p`; nothing, if no event has it. -/
def beforeLast (p : α → Bool) (l : List α) : List α :=
  (l.reverse.dropWhile fun a => !p a).tail.reverse

section BeforeLast

variable {p : α → Bool} {l l' : List α}

theorem beforeLast_nil : beforeLast p [] = [] := rfl

theorem beforeLast_snoc (a : α) : beforeLast p (l ++ [a]) = if p a then l else beforeLast p l := by
  unfold beforeLast
  rw [List.reverse_append, List.reverse_singleton, List.singleton_append, List.dropWhile_cons]
  cases p a <;> simp

/-- The last event is known. -/
theorem beforeLast_eq {pre post : List α} {a : α} (ha : p a = true) (hpost : ∀ b ∈ post, p b = false) :
    beforeLast p (pre ++ a :: post) = pre := by
  induction post using List.reverseRecOn with
  | nil => rw [beforeLast_snoc, if_pos ha]
  | append_singleton post b ih =>
      have hb : ¬p b = true := ne_true_of_eq_false (hpost b (by simp))
      rw [← List.cons_append, ← List.append_assoc, beforeLast_snoc, if_neg hb]
      exact ih fun c hc => hpost c (List.mem_append_left _ hc)

theorem beforeLast_prefix : beforeLast p l <+: l := by
  induction l using List.reverseRecOn with
  | nil => exact List.prefix_rfl
  | append_singleton l a ih =>
      rw [beforeLast_snoc]
      split_ifs
      · exact List.prefix_append l [a]
      · exact ih.trans (List.prefix_append l [a])

/-- A longer history has more before the last event. -/
theorem beforeLast_mono (h : l <+: l') : beforeLast p l <+: beforeLast p l' := by
  obtain ⟨rest, rfl⟩ := h
  induction rest using List.reverseRecOn with
  | nil => rw [List.append_nil]
  | append_singleton rest a ih =>
      rw [← List.append_assoc, beforeLast_snoc]
      split_ifs
      · exact beforeLast_prefix.trans (List.prefix_append l rest)
      · exact ih

end BeforeLast

/-- `x` is the first event of the unbroken period of `p` that the history ends with. -/
def BeganAt (p : α → Prop) (l : List α) (x : α) : Prop :=
  ∃ pre post, l = pre ++ x :: post ∧ (∀ y ∈ x :: post, p y) ∧ ∀ b ∈ pre.getLast?, ¬p b

section BeganAt

variable {p : α → Prop} {l : List α}

theorem not_beganAt_nil (x : α) : ¬BeganAt p [] x := by
  rintro ⟨pre, post, h, -⟩
  simp at h

/-- One more event begins a period after none, or continues one. -/
theorem beganAt_snoc {a x : α} :
    BeganAt p (l ++ [a]) x ↔ p a ∧ (BeganAt p l x ∨ (x = a ∧ ∀ b ∈ l.getLast?, ¬p b)) := by
  constructor
  · rintro ⟨pre, post, h, hp, hlast⟩
    rcases snoc_split h with ⟨rfl, rfl, -⟩ | ⟨rest, rfl, hl⟩
    · exact ⟨hp a (List.mem_cons_self ..), .inr ⟨rfl, hlast⟩⟩
    · refine ⟨hp a (by simp), .inl ⟨pre, rest, hl, fun y hy => hp y ?_, hlast⟩⟩
      rw [← List.cons_append]
      exact List.mem_append_left _ hy
  · rintro ⟨ha, ⟨pre, post, rfl, hp, hlast⟩ | ⟨rfl, hlast⟩⟩
    · refine ⟨pre, post ++ [a], by simp, fun y hy => ?_, hlast⟩
      rw [← List.cons_append, List.mem_append, List.mem_singleton] at hy
      rcases hy with hy | rfl
      · exact hp y hy
      · exact ha
    · refine ⟨l, [], rfl, fun y hy => ?_, hlast⟩
      rw [List.mem_singleton.mp hy]
      exact ha

/-- The last event is in the period. -/
theorem BeganAt.last {a x : α} (h : BeganAt p (l ++ [a]) x) : p a :=
  (beganAt_snoc.mp h).1

/-- A period that is still on began somewhere. -/
theorem exists_beganAt (h : ∃ b ∈ l.getLast?, p b) : ∃ x, BeganAt p l x := by
  induction l using List.reverseRecOn with
  | nil => simp at h
  | append_singleton l a ih =>
      have ha : p a := by simpa using h
      by_cases hl : ∃ b ∈ l.getLast?, p b
      · obtain ⟨x, hx⟩ := ih hl
        exact ⟨x, beganAt_snoc.mpr ⟨ha, .inl hx⟩⟩
      · push Not at hl
        exact ⟨a, beganAt_snoc.mpr ⟨ha, .inr ⟨rfl, hl⟩⟩⟩

/-- A period has one beginning. -/
theorem BeganAt.unique {x y : α} (hx : BeganAt p l x) (hy : BeganAt p l y) : x = y := by
  induction l using List.reverseRecOn with
  | nil => exact absurd hx (not_beganAt_nil x)
  | append_singleton l a ih =>
      have hbusy : ∀ z, BeganAt p l z → ∃ b ∈ l.getLast?, p b := by
        intro z hz
        rcases List.eq_nil_or_concat' l with rfl | ⟨l, b, rfl⟩
        · exact absurd hz (not_beganAt_nil z)
        · exact ⟨b, by simp, hz.last⟩
      rcases (beganAt_snoc.mp hx).2 with hbusyX | ⟨rfl, hidle⟩ <;>
        rcases (beganAt_snoc.mp hy).2 with hbusyY | ⟨rfl, hidle'⟩
      · exact ih hbusyX hbusyY
      · obtain ⟨b, hb, hpb⟩ := hbusy x hbusyX
        exact absurd hpb (hidle' b hb)
      · obtain ⟨b, hb, hpb⟩ := hbusy y hbusyY
        exact absurd hpb (hidle b hb)
      · rfl

end BeganAt

end SoftPlc.Lib
