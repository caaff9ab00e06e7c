import SoftPlc.Api.Merge
import SoftPlc.Api.Store
import Mathlib.Logic.Function.Basic

/-!
# Concurrent writes of the configuration

`plc-api/src/routes/config.rs`: `PUT` and `PATCH /config`, one access to the shared state at a time,
while the mode stays STOP and saves succeed. The handlers hold no lock from one access to the next.
`config_updates_kept` is about the runs in which no request saves while another one is between its
save and its last write, and every PATCH saves over the configuration that it has read.
-/

namespace SoftPlc.Api

open SoftPlc.Lib

/-! ## The handlers -/

/-- What the handlers call on a configuration. -/
structure ConfigCode where
  /-- Source: `plc-config/src/schema.rs`, `DeviceConfig`. -/
  Config : Type
  /-- Source: `plc-auth/src/service.rs`, `AuthService`. -/
  Auth : Type
  /-- `serde_json::to_value`. -/
  toValue : Config → Except String JsonValue
  /-- `serde_json::from_value`. -/
  ofValue : JsonValue → Except String Config
  /-- Source: `plc-config/src/validate.rs`, `validate`. -/
  validate : Config → Except String Config
  /-- Source: `service.rs`, `AuthService::from_config` of its fields `auth` and `limits`. -/
  authOf : Config → Except String Auth
  /-- The field `program.require_signature`. -/
  requireSignature : Config → Bool
  /-- Source: `config.rs`, `needs_restart`. -/
  needsRestart : Config → Config → Bool

variable (C : ConfigCode)

/-- A request that may write the configuration. -/
inductive ConfigRequest where
  | put (body : C.Config)
  | patch (p : JsonValue)

/-- Where a request stands. Source: `config.rs`, `patch` and `apply_config`. -/
inductive ConfigStage where
  /-- Before its first access. -/
  | waiting
  /-- A PATCH has read its base and merged into it; a PUT has its body. -/
  | parsed (base : Option C.Config) (cfg : C.Config)
  /-- Before `save_to_path`. -/
  | checked (base : Option C.Config) (cfg : C.Config) (auth : C.Auth) (restart : Bool)
  /-- Before `set_config` of the runtime. -/
  | saved (cfg : C.Config) (auth : C.Auth) (restart : Bool)
  /-- Before the write of `state.auth`. -/
  | configured (cfg : C.Config) (auth : C.Auth) (restart : Bool)
  /-- Before the write of `state.config`. -/
  | authorized (cfg : C.Config) (restart : Bool)
  /-- Answered with success. -/
  | done (restart : Bool)
  /-- Answered with an error. -/
  | failed (e : ApiError)

/-- The shared state and where every request stands. -/
structure ConfigWorld (ι : Type) where
  config : C.Config
  auth : C.Auth
  /-- The field `require_signature` of the runtime's configuration. -/
  requireSignature : Bool
  /-- The saved file; `none` without a path. -/
  file : Option C.Config
  stage : ι → ConfigStage C

/-- The next access of a request, or its rejection by `Authed::require`. -/
inductive ConfigTurn (ι : Type) where
  | go (i : ι)
  | refuse (i : ι) (e : ApiError)

variable {C} {ι : Type}

namespace ConfigWorld

/-- A device that was started with a configuration. -/
def start (c : C.Config) (a : C.Auth) (path : Bool) : ConfigWorld C ι :=
  ⟨c, a, C.requireSignature c, if path then some c else none, fun _ => .waiting⟩

variable [DecidableEq ι]

/-- A request goes on to a stage. -/
def move (w : ConfigWorld C ι) (i : ι) (stage : ConfigStage C) : ConfigWorld C ι :=
  { w with stage := Function.update w.stage i stage }

/-- The next access of a request. Source: `config.rs`, the bodies of `put`, `patch` and
`apply_config`. -/
def go (requests : ι → ConfigRequest C) (w : ConfigWorld C ι) (i : ι) : ConfigWorld C ι :=
  match w.stage i with
  | .waiting =>
      match requests i with
      | .put body => w.move i (.parsed none body)
      | .patch p =>
          match C.toValue w.config with
          | .error e => w.move i (.failed (.internal e))
          | .ok base =>
              match C.ofValue (base.merge p) with
              | .error e => w.move i (.failed (.badRequest "config" e))
              | .ok cfg => w.move i (.parsed (some w.config) cfg)
  | .parsed base cfg =>
      match C.validate cfg with
      | .error e => w.move i (.failed (.badRequest "config" e))
      | .ok cfg =>
          match C.authOf cfg with
          | .error e => w.move i (.failed (.badRequest "config" e))
          | .ok auth => w.move i (.checked base cfg auth (C.needsRestart w.config cfg))
  | .checked _ cfg auth restart =>
      { w.move i (.saved cfg auth restart) with file := w.file.map fun _ => cfg }
  | .saved cfg auth restart =>
      { w.move i (.configured cfg auth restart) with requireSignature := C.requireSignature cfg }
  | .configured cfg auth restart => { w.move i (.authorized cfg restart) with auth := auth }
  | .authorized cfg restart => { w.move i (.done restart) with config := cfg }
  | .done _ | .failed _ => w

/-- A turn of a request. -/
def turn (requests : ι → ConfigRequest C) (w : ConfigWorld C ι) : ConfigTurn ι → ConfigWorld C ι
  | .go i => w.go requests i
  | .refuse i e =>
      match w.stage i with
      | .waiting => w.move i (.failed e)
      | _ => w

/-- An interleaving. -/
def run (requests : ι → ConfigRequest C) (w : ConfigWorld C ι) (turns : List (ConfigTurn ι)) :
    ConfigWorld C ι := turns.foldl (turn requests) w

end ConfigWorld

/-! ## What is promised -/

namespace ConfigCode

/-- The configuration that a document is read and accepted as. -/
def accept (C : ConfigCode) (v : JsonValue) : Option C.Config :=
  (C.ofValue v).toOption.bind fun c => (C.validate c).toOption

/-- What a PATCH makes of a configuration. -/
def applied (C : ConfigCode) (p : JsonValue) (c : C.Config) : Option C.Config :=
  (C.toValue c).toOption.bind fun v => C.accept (v.merge p)

/-- The change of a PATCH is in a configuration: the same PATCH makes nothing else of it. -/
def Contains (C : ConfigCode) (c : C.Config) (p : JsonValue) : Prop := C.applied p c = some c

/-- What is relied on of the derived reader and writer. Documents are maps in key order, and a
configuration that was read from a patched document is written back such that the same patch, or one
that sets other keys, makes the same of what was written as of what was read. -/
structure Lawful (C : ConfigCode) : Prop where
  ordered : ∀ c v, C.toValue c = .ok v → v.Ordered
  readBack : ∀ c c' v p q, C.toValue c = .ok v → C.accept (v.merge q) = some c' → p.Sets → q.Sets →
    (p = q ∨ p.Apart q) →
      ∃ v', C.toValue c' = .ok v' ∧ C.accept (v'.merge p) = C.accept ((v.merge q).merge p)

end ConfigCode

/-- Whether a request is between its save and its last write. -/
def ConfigStage.inFlight : ConfigStage C → Bool
  | .saved _ _ _ | .configured _ _ _ | .authorized _ _ => true
  | .waiting | .parsed _ _ | .checked _ _ _ _ | .done _ | .failed _ => false

/-- Whether a request has saved and did not fail. -/
def ConfigStage.hasSaved : ConfigStage C → Bool
  | .saved _ _ _ | .configured _ _ _ | .authorized _ _ | .done _ => true
  | .waiting | .parsed _ _ | .checked _ _ _ _ | .failed _ => false

/-- Whether a request is answered. -/
def ConfigStage.finished : ConfigStage C → Bool
  | .done _ | .failed _ => true
  | _ => false

/-- PATCHes that set pairwise disjoint keys. -/
structure Disjoined (C : ConfigCode) (requests : ι → ConfigRequest C) : Prop where
  sets : ∀ i, ∃ p, requests i = .patch p ∧ p.Sets
  apart : ∀ i j p q, i ≠ j → requests i = .patch p → requests j = .patch q → p.Apart q

namespace ConfigWorld

variable {w : ConfigWorld C ι} {requests : ι → ConfigRequest C}

/-- File, runtime, authorization and live configuration derive from one configuration. -/
structure Agrees (w : ConfigWorld C ι) (c : C.Config) : Prop where
  config : w.config = c
  auth : C.authOf c = .ok w.auth
  requireSignature : w.requireSignature = C.requireSignature c
  file : ∀ f ∈ w.file, f = c

/-- No update is lost or split: all agree on a configuration that was accepted, and it has the change
of every PATCH answered with success. -/
def Kept (requests : ι → ConfigRequest C) (c₀ : C.Config) (w : ConfigWorld C ι) : Prop :=
  (∃ c, (c = c₀ ∨ ∃ body, C.validate body = .ok c) ∧ w.Agrees c) ∧
    (C.Lawful → Disjoined C requests → ∀ i p restart, requests i = .patch p →
      w.stage i = .done restart → C.Contains w.config p)

/-- A request that is about to save saves alone, and over the configuration that it has read. -/
def Alone (w : ConfigWorld C ι) (i : ι) : Prop :=
  ∀ base cfg auth restart, w.stage i = .checked base cfg auth restart →
    (∀ j, (w.stage j).inFlight = false) ∧ ∀ b, base = some b → b = w.config

/-- Every save of an interleaving is made alone. -/
def Orderly [DecidableEq ι] (requests : ι → ConfigRequest C) (w : ConfigWorld C ι) : List (ConfigTurn ι) → Prop
  | [] => True
  | .go i :: turns => w.Alone i ∧ (w.turn requests (.go i)).Orderly requests turns
  | .refuse i e :: turns => (w.turn requests (.refuse i e)).Orderly requests turns

end ConfigWorld

/-! ## Patches one after the other -/

namespace ConfigCode

variable {c c' : C.Config} {p q : JsonValue}

theorem applied_eq {v : JsonValue} (h : C.toValue c = .ok v) :
    C.applied p c = C.accept (v.merge p) := by
  unfold applied
  rw [h]
  rfl

theorem exists_toValue (h : C.applied p c = some c') : ∃ v, C.toValue c = .ok v := by
  unfold applied at h
  rcases hv : C.toValue c with e | v
  · rw [hv] at h
    cases h
  · exact ⟨v, rfl⟩

/-- A PATCH is in what it makes. -/
theorem Lawful.contains_self (h : C.Lawful) (hp : p.Sets) (happlied : C.applied p c = some c') :
    C.Contains c' p := by
  obtain ⟨v, hv⟩ := exists_toValue happlied
  rw [applied_eq hv] at happlied
  obtain ⟨v', hv', hback⟩ := h.readBack c c' v p p hv happlied hp hp (.inl rfl)
  unfold Contains
  rw [applied_eq hv', hback, JsonValue.merge_merge_self (h.ordered c v hv) hp]
  exact happlied

/-- A PATCH of other keys leaves it there. -/
theorem Lawful.contains_other (h : C.Lawful) (hp : p.Sets) (hq : q.Sets) (hapart : p.Apart q)
    (hcontains : C.Contains c p) (happlied : C.applied q c = some c') : C.Contains c' p := by
  obtain ⟨v, hv⟩ := exists_toValue happlied
  unfold Contains at hcontains ⊢
  rw [applied_eq hv] at happlied hcontains
  obtain ⟨v', hv', hback⟩ := h.readBack c c' v p q hv happlied hp hq (.inr hapart)
  obtain ⟨v'', hv'', hback'⟩ := h.readBack c c v q p hv hcontains hq hp (.inr hapart.symm)
  obtain rfl : v = v'' := Except.ok.inj (hv.symm.trans hv'')
  calc C.applied p c' = C.accept (v'.merge p) := applied_eq hv'
    _ = C.accept ((v.merge q).merge p) := hback
    _ = C.accept ((v.merge p).merge q) := by
        rw [JsonValue.merge_comm_of_apart (h.ordered c v hv) hp hq hapart]
    _ = C.accept (v.merge q) := hback'.symm
    _ = some c' := happlied

end ConfigCode

/-! ## The invariant -/

namespace ConfigWorld

variable {w w' : ConfigWorld C ι} {requests : ι → ConfigRequest C} {latest latest' c₀ : C.Config}
  {request : ConfigRequest C} {stage : ConfigStage C} {i : ι}

/-- What is known of a request at its stage, where `latest` was saved last. -/
inductive StageAt (w : ConfigWorld C ι) (latest : C.Config) (request : ConfigRequest C) :
    ConfigStage C → Prop
  | waiting : StageAt w latest request .waiting
  | parsed {base : Option C.Config} {cfg : C.Config}
      (h : ∀ p, request = .patch p → ∃ b v, base = some b ∧ C.toValue b = .ok v ∧
        C.ofValue (v.merge p) = .ok cfg) : StageAt w latest request (.parsed base cfg)
  | checked {base : Option C.Config} {cfg : C.Config} {auth : C.Auth} {restart : Bool}
      (hvalid : ∃ body, C.validate body = .ok cfg) (hauth : C.authOf cfg = .ok auth)
      (h : ∀ p, request = .patch p → ∃ b, base = some b ∧ C.applied p b = some cfg) :
      StageAt w latest request (.checked base cfg auth restart)
  | saved {auth : C.Auth} {restart : Bool} (hauth : C.authOf latest = .ok auth) :
      StageAt w latest request (.saved latest auth restart)
  | configured {auth : C.Auth} {restart : Bool} (hauth : C.authOf latest = .ok auth)
      (hsignature : w.requireSignature = C.requireSignature latest) :
      StageAt w latest request (.configured latest auth restart)
  | authorized {restart : Bool} (hauth : C.authOf latest = .ok w.auth)
      (hsignature : w.requireSignature = C.requireSignature latest) :
      StageAt w latest request (.authorized latest restart)
  | done {restart : Bool} : StageAt w latest request (.done restart)
  | failed {e : ApiError} : StageAt w latest request (.failed e)

/-- A request that is not in flight does not depend on what is written. -/
theorem StageAt.frame (h : w.StageAt latest request stage) (hstage : stage.inFlight = false) :
    w'.StageAt latest' request stage := by
  cases h with
  | waiting => exact .waiting
  | parsed h => exact .parsed h
  | checked hvalid hauth h => exact .checked hvalid hauth h
  | saved => cases hstage
  | configured => cases hstage
  | authorized => cases hstage
  | done => exact .done
  | failed => exact .failed

theorem StageAt.same (h : w.StageAt latest request stage) (hauth : w'.auth = w.auth)
    (hsignature : w'.requireSignature = w.requireSignature) : w'.StageAt latest request stage := by
  cases h with
  | waiting => exact .waiting
  | parsed h => exact .parsed h
  | checked hvalid hauth h => exact .checked hvalid hauth h
  | saved h => exact .saved h
  | configured h hs => exact .configured h (hsignature.trans hs)
  | authorized h hs => exact .authorized (hauth ▸ h) (hsignature.trans hs)
  | done => exact .done
  | failed => exact .failed

/-- After the save of a configuration: the file has it, only one request is on its way to write it
everywhere, and once there is none all agree. -/
structure Steady (requests : ι → ConfigRequest C) (c₀ : C.Config) (w : ConfigWorld C ι)
    (latest : C.Config) : Prop where
  accepted : latest = c₀ ∨ ∃ body, C.validate body = .ok latest
  file : ∀ f ∈ w.file, f = latest
  single : ∀ i j, (w.stage i).inFlight = true → (w.stage j).inFlight = true → i = j
  rest : (∀ i, (w.stage i).inFlight = false) → w.Agrees latest
  stage : ∀ i, w.StageAt latest (requests i) (w.stage i)
  contains : C.Lawful → Disjoined C requests → ∀ i p, requests i = .patch p →
    (w.stage i).hasSaved = true → C.Contains latest p

theorem start_steady (c : C.Config) {a : C.Auth} (ha : C.authOf c = .ok a) (path : Bool) :
    Steady requests c (start c a path : ConfigWorld C ι) c where
  accepted := .inl rfl
  file := by
    intro f hf
    unfold start at hf
    cases path with
    | true => exact (Option.some.inj hf).symm
    | false => cases hf
  single := fun i _ hi => by cases hi
  rest := fun _ => ⟨rfl, ha, rfl, by
    intro f hf
    unfold start at hf
    cases path with
    | true => exact (Option.some.inj hf).symm
    | false => cases hf⟩
  stage := fun _ => .waiting
  contains := fun _ _ _ _ _ h => by cases h

variable [DecidableEq ι]

theorem move_stage_self (w : ConfigWorld C ι) (i : ι) (stage : ConfigStage C) :
    (w.move i stage).stage i = stage := Function.update_self ..

theorem move_stage_of_ne (w : ConfigWorld C ι) {i j : ι} (h : j ≠ i) (stage : ConfigStage C) :
    (w.move i stage).stage j = w.stage j := Function.update_of_ne h ..

/-- A request goes on without writing. -/
theorem Steady.move (h : Steady requests c₀ w latest) (hi : (w.stage i).inFlight = false)
    (hflight : stage.inFlight = false) (hsaved : stage.hasSaved = false)
    (hstage : w.StageAt latest (requests i) stage) :
    Steady requests c₀ (w.move i stage) latest := by
  have hsame : ∀ j, ((w.move i stage).stage j).inFlight = (w.stage j).inFlight := by
    intro j
    by_cases hj : j = i
    · rw [hj, move_stage_self, hflight, hi]
    · rw [move_stage_of_ne w hj]
  refine
    { accepted := h.accepted
      file := h.file
      single := ?_
      rest := ?_
      stage := ?_
      contains := ?_ }
  · intro j k hj hk
    rw [hsame] at hj hk
    exact h.single j k hj hk
  · intro hnone
    obtain ⟨hconfig, hauth, hsignature, hfile⟩ := h.rest fun j => hsame j ▸ hnone j
    exact ⟨hconfig, hauth, hsignature, hfile⟩
  · intro j
    by_cases hj : j = i
    · subst hj
      rw [move_stage_self]
      exact hstage.frame hflight
    · rw [move_stage_of_ne w hj]
      exact (h.stage j).same rfl rfl
  · intro hlawful hdisjoined j p hp hj
    by_cases hji : j = i
    · subst hji
      rw [move_stage_self, hsaved] at hj
      cases hj
    · rw [move_stage_of_ne w hji] at hj
      exact h.contains hlawful hdisjoined j p hp hj

/-- The request in flight goes on and writes. -/
theorem Steady.write (h : Steady requests c₀ w latest) (hi : (w.stage i).inFlight = true)
    (hmove : w'.stage = (w.move i stage).stage) (hfile : w'.file = w.file)
    (hflight : stage.inFlight = true) (hstage : w'.StageAt latest (requests i) stage) :
    Steady requests c₀ w' latest := by
  have hother : ∀ j, j ≠ i → (w.stage j).inFlight = false := by
    intro j hj
    by_contra hflight
    exact hj (h.single j i (by simpa using hflight) hi)
  have hself : w'.stage i = stage := by rw [hmove, move_stage_self]
  have hne : ∀ j, j ≠ i → w'.stage j = w.stage j := fun j hj => by rw [hmove, move_stage_of_ne w hj]
  refine
    { accepted := h.accepted
      file := hfile ▸ h.file
      single := ?_
      rest := ?_
      stage := ?_
      contains := ?_ }
  · intro j k hj hk
    have hall : ∀ j, (w'.stage j).inFlight = true → j = i := by
      intro j hj
      by_contra hji
      rw [hne j hji, hother j hji] at hj
      cases hj
    rw [hall j hj, hall k hk]
  · intro hnone
    have hi' := hnone i
    rw [hself, hflight] at hi'
    cases hi'
  · intro j
    by_cases hj : j = i
    · rw [hj, hself]
      exact hstage
    · rw [hne j hj]
      exact (h.stage j).frame (hother j hj)
  · intro hlawful hdisjoined j p hp hj
    by_cases hji : j = i
    · subst hji
      apply h.contains hlawful hdisjoined j p hp
      generalize w.stage j = before at hi
      cases before with
      | saved | configured | authorized => rfl
      | _ => cases hi
    · rw [hne j hji] at hj
      exact h.contains hlawful hdisjoined j p hp hj

/-- A request saves alone. -/
theorem Steady.save (h : Steady requests c₀ w latest) {base : Option C.Config} {cfg : C.Config}
    {auth : C.Auth} {restart : Bool} (hi : w.stage i = .checked base cfg auth restart)
    (halone : w.Alone i) :
    Steady requests c₀ { w.move i (.saved cfg auth restart) with file := w.file.map fun _ => cfg }
      cfg := by
  obtain ⟨hnone, hbase⟩ := halone base cfg auth restart hi
  have hrest := h.rest hnone
  have hat := h.stage i
  rw [hi] at hat
  cases hat with
  | checked hvalid hauth hpatch =>
      refine
        { accepted := .inr hvalid
          file := ?_
          single := ?_
          rest := ?_
          stage := ?_
          contains := ?_ }
      · intro f hf
        obtain ⟨-, -, hf⟩ := Option.map_eq_some_iff.mp hf
        exact hf.symm
      · have hall : ∀ j, ((w.move i (.saved cfg auth restart)).stage j).inFlight = true → j = i := by
          intro j hj
          by_contra hji
          rw [move_stage_of_ne w hji, hnone j] at hj
          cases hj
        intro j k hj hk
        rw [hall j hj, hall k hk]
      · intro hnone'
        have hi' : ((w.move i (.saved cfg auth restart)).stage i).inFlight = false := hnone' i
        rw [move_stage_self] at hi'
        cases hi'
      · intro j
        show StageAt _ cfg (requests j) ((w.move i (.saved cfg auth restart)).stage j)
        by_cases hj : j = i
        · rw [hj, move_stage_self]
          exact .saved hauth
        · rw [move_stage_of_ne w hj]
          exact (h.stage j).frame (hnone j)
      · intro hlawful hdisjoined j q hq hj
        change ((w.move i (.saved cfg auth restart)).stage j).hasSaved = true at hj
        obtain ⟨p, hp, hpsets⟩ := hdisjoined.sets i
        obtain ⟨b, hb, happlied⟩ := hpatch p hp
        rw [hbase b hb, hrest.config] at happlied
        by_cases hji : j = i
        · subst hji
          rw [hp] at hq
          cases hq
          exact hlawful.contains_self hpsets happlied
        · rw [move_stage_of_ne w hji] at hj
          obtain ⟨q', hq', hqsets⟩ := hdisjoined.sets j
          rw [hq] at hq'
          cases hq'
          exact hlawful.contains_other hqsets hpsets (hdisjoined.apart j i q p hji hq hp)
            (h.contains hlawful hdisjoined j q hq hj) happlied

/-- The request in flight writes the live configuration. -/
theorem Steady.finish (h : Steady requests c₀ w latest) {cfg : C.Config} {restart : Bool}
    (hi : w.stage i = .authorized cfg restart) :
    Steady requests c₀ { w.move i (.done restart) with config := cfg } latest := by
  have hflight : (w.stage i).inFlight = true := by rw [hi]; rfl
  have hother : ∀ j, j ≠ i → (w.stage j).inFlight = false := by
    intro j hj
    by_contra hflight'
    exact hj (h.single j i (by simpa using hflight') hflight)
  have hnone : ∀ j, ((w.move i (.done restart)).stage j).inFlight = false := by
    intro j
    by_cases hj : j = i
    · rw [hj, move_stage_self]
      rfl
    · rw [move_stage_of_ne w hj]
      exact hother j hj
  have hat := h.stage i
  rw [hi] at hat
  cases hat with
  | authorized hauth hsignature =>
      refine
        { accepted := h.accepted
          file := h.file
          single := ?_
          rest := fun _ => ⟨rfl, hauth, hsignature, h.file⟩
          stage := ?_
          contains := ?_ }
      · intro j _ hj
        exact absurd ((hnone j).symm.trans hj) Bool.false_ne_true
      · intro j
        show StageAt _ latest (requests j) ((w.move i (.done restart)).stage j)
        by_cases hj : j = i
        · rw [hj, move_stage_self]
          exact .done
        · rw [move_stage_of_ne w hj]
          exact (h.stage j).frame (hother j hj)
      · intro hlawful hdisjoined j p hp hj
        change ((w.move i (.done restart)).stage j).hasSaved = true at hj
        by_cases hji : j = i
        · subst hji
          exact h.contains hlawful hdisjoined j p hp (by rw [hi]; rfl)
        · rw [move_stage_of_ne w hji] at hj
          exact h.contains hlawful hdisjoined j p hp hj

/-- **A turn of a request.** -/
theorem Steady.go (h : Steady requests c₀ w latest) (halone : w.Alone i) :
    ∃ latest', Steady requests c₀ (w.go requests i) latest' := by
  have hat := h.stage i
  unfold ConfigWorld.go
  rcases hi : w.stage i with _ | ⟨base, cfg⟩ | ⟨base, cfg, auth, restart⟩ | ⟨cfg, auth, restart⟩ |
    ⟨cfg, auth, restart⟩ | ⟨cfg, restart⟩ | restart | e
  · have hfree : (w.stage i).inFlight = false := by rw [hi]; rfl
    rcases hr : requests i with body | p
    · refine ⟨latest, h.move hfree rfl rfl (.parsed ?_)⟩
      intro p hp
      rw [hr] at hp
      cases hp
    · dsimp only
      rcases hv : C.toValue w.config with e | v
      · exact ⟨latest, h.move hfree rfl rfl .failed⟩
      · dsimp only
        rcases hcfg : C.ofValue (v.merge p) with e | cfg
        · exact ⟨latest, h.move hfree rfl rfl .failed⟩
        · refine ⟨latest, h.move hfree rfl rfl (.parsed ?_)⟩
          intro q hq
          rw [hr] at hq
          cases hq
          exact ⟨w.config, v, rfl, hv, hcfg⟩
  · have hfree : (w.stage i).inFlight = false := by rw [hi]; rfl
    rw [hi] at hat
    dsimp only
    rcases hvalid : C.validate cfg with e | cfg'
    · exact ⟨latest, h.move hfree rfl rfl .failed⟩
    · dsimp only
      rcases hauth : C.authOf cfg' with e | auth
      · exact ⟨latest, h.move hfree rfl rfl .failed⟩
      · refine ⟨latest, h.move hfree rfl rfl (.checked ⟨cfg, hvalid⟩ hauth ?_)⟩
        intro p hp
        cases hat with
        | parsed hparsed =>
            obtain ⟨b, v, hb, hv, hcfg⟩ := hparsed p hp
            refine ⟨b, hb, (ConfigCode.applied_eq hv).trans ?_⟩
            unfold ConfigCode.accept
            rw [hcfg]
            show (C.validate cfg).toOption = some cfg'
            rw [hvalid]
            rfl
  · exact ⟨cfg, h.save hi halone⟩
  · have hflight : (w.stage i).inFlight = true := by rw [hi]; rfl
    rw [hi] at hat
    cases hat with
    | saved hauth => exact ⟨latest, h.write hflight rfl rfl rfl (.configured hauth rfl)⟩
  · have hflight : (w.stage i).inFlight = true := by rw [hi]; rfl
    rw [hi] at hat
    cases hat with
    | configured hauth hsignature =>
        exact ⟨latest, h.write hflight rfl rfl rfl (.authorized hauth hsignature)⟩
  · exact ⟨latest, h.finish hi⟩
  · exact ⟨latest, h⟩
  · exact ⟨latest, h⟩

/-- A request is rejected. -/
theorem Steady.refuse (h : Steady requests c₀ w latest) (i : ι) (e : ApiError) :
    Steady requests c₀ (w.turn requests (.refuse i e)) latest := by
  show Steady requests c₀ (match w.stage i with
    | .waiting => w.move i (.failed e)
    | _ => w) latest
  split
  · rename_i hi
    exact h.move (by rw [hi]; rfl) rfl rfl .failed
  · exact h

theorem Steady.run (h : Steady requests c₀ w latest) {turns : List (ConfigTurn ι)}
    (horderly : w.Orderly requests turns) :
    ∃ latest', Steady requests c₀ (w.run requests turns) latest' := by
  induction turns generalizing w latest with
  | nil => exact ⟨latest, h⟩
  | cons t turns ih =>
      rcases t with i | ⟨i, e⟩
      · obtain ⟨latest', h'⟩ := h.go horderly.1
        exact ih h' horderly.2
      · exact ih (h.refuse i e) horderly

/-- **Updates are kept when every save is made alone.** When all requests are answered, the file, the
runtime, the authorization and the live configuration derive from one accepted configuration, and if
the requests are PATCHes that set disjoint keys it has the change of each that succeeded. -/
theorem config_updates_kept {c₀ : C.Config} {a₀ : C.Auth} {path : Bool} {turns : List (ConfigTurn ι)}
    (hauth : C.authOf c₀ = .ok a₀) (horderly : (start c₀ a₀ path).Orderly requests turns)
    (hdone : ∀ i, (((start c₀ a₀ path).run requests turns).stage i).finished = true) :
    Kept requests c₀ ((start c₀ a₀ path).run requests turns) := by
  obtain ⟨latest, h⟩ := (start_steady c₀ hauth path).run horderly
  have hagrees : ((start c₀ a₀ path).run requests turns).Agrees latest := by
    apply h.rest
    intro i
    have hi := hdone i
    generalize ((start c₀ a₀ path).run requests turns).stage i = stage at hi ⊢
    cases stage with
    | done | failed => rfl
    | _ => cases hi
  refine ⟨⟨latest, h.accepted, hagrees⟩, ?_⟩
  intro hlawful hdisjoined i p restart hp hi
  rw [hagrees.config]
  exact h.contains hlawful hdisjoined i p hp (by rw [hi]; rfl)

end ConfigWorld

/-! ## A configuration of two fields -/

/-- A section with one field; other fields are ignored, and a field that is missing has its default. -/
def readSection {α : Type} (name : String) (missing : α) (ofLeaf : JsonValue → Option α) :
    Option JsonValue → Option α
  | none => some missing
  | some (.object members) =>
      match members.lookup name with
      | none => some missing
      | some v => ofLeaf v
  | some _ => none

/-- A section is read back after a patch as it was read. -/
theorem readSection_patched {α : Type} {name : String} {missing x : α}
    {ofLeaf : JsonValue → Option α} {leaf o : JsonValue} {p : Option JsonValue}
    (hread : readSection name missing ofLeaf (some o) = some x) (ho : o.Ordered)
    (hobject : ∀ v, v.isObject = true → ofLeaf v = none) (hleaf : ofLeaf leaf = some x)
    (hp : ∀ w ∈ p, w.Sets) :
    readSection name missing ofLeaf (JsonValue.patched (some (.object [(name, leaf)])) p) =
      readSection name missing ofLeaf (JsonValue.patched (some o) p) := by
  have hsingle : [(name, leaf)].lookup name = some leaf := by
    rw [List.lookup_cons, beq_self_eq_true]
  have hplain : ∀ v y, ofLeaf v = some y → v.isObject = false := by
    intro v y hv
    by_contra hnot
    rw [hobject v (by simpa using hnot)] at hv
    cases hv
  rcases p with _ | w
  · show (match [(name, leaf)].lookup name with
      | none => some missing
      | some v => ofLeaf v) = _
    rw [hsingle]
    exact hleaf.trans hread.symm
  · have hw := hp w rfl
    rw [JsonValue.patched_set hw.ne_null, JsonValue.patched_set hw.ne_null]
    cases hw with
    | leaf _ hnot =>
        show readSection _ _ _ (some (JsonValue.merge _ w)) = readSection _ _ _ (some (o.merge w))
        rw [JsonValue.merge_of_not_object (.inr hnot), JsonValue.merge_of_not_object (.inr hnot)]
    | @object members hsorted hmembers =>
        cases ho with
        | leaf hnot =>
            cases o with
            | object => cases hnot
            | _ => cases hread
        | @object a ha _ =>
            have hone : SortedKeys [(name, leaf)] := List.pairwise_singleton _ _
            have hfirst := (JsonValue.mergeMembers_spec hone hsorted).2 name
            have hsecond := (JsonValue.mergeMembers_spec ha hsorted).2 name
            show readSection _ _ _ (some (JsonValue.merge _ _)) =
              readSection _ _ _ (some (JsonValue.merge _ _))
            rw [JsonValue.merge_object, JsonValue.merge_object]
            unfold readSection at hread ⊢
            dsimp only at hread ⊢
            rw [hfirst, hsecond, hsingle]
            rcases hu : members.lookup name with _ | u
            · exact hleaf.trans hread.symm
            · have hne := (hmembers name u hu).ne_null
              rw [JsonValue.patched_set hne, JsonValue.patched_set hne]
              have hthis : JsonValue.merge leaf u = u :=
                JsonValue.merge_of_not_object (.inl (hplain leaf x hleaf))
              rcases hv : a.lookup name with _ | v
              · show ofLeaf (JsonValue.merge leaf u) = ofLeaf u
                rw [hthis]
              · rw [hv] at hread
                have hthat : JsonValue.merge v u = u :=
                  JsonValue.merge_of_not_object (.inl (hplain v x hread))
                show ofLeaf (JsonValue.merge leaf u) = ofLeaf (JsonValue.merge v u)
                rw [hthis, hthat]

/-- The field `limits.rest_rate_per_s`. -/
def readRate (v : Option JsonValue) : Option ℤ :=
  readSection "rest_rate_per_s" 30 (fun v => match v with | .int n => some n | _ => none) v

/-- The field `program.require_signature`. -/
def readSignature (v : Option JsonValue) : Option Bool :=
  readSection "require_signature" false (fun v => match v with | .bool b => some b | _ => none) v

/-- The two fields as a document. -/
def twoFields (rate : ℤ) (signature : Bool) : JsonValue :=
  .object [("limits", .object [("rest_rate_per_s", .int rate)]),
    ("program", .object [("require_signature", .bool signature)])]

/-- The handlers over the two fields. -/
def twoFieldCode : ConfigCode where
  Config := ℤ × Bool
  Auth := ℤ
  toValue := fun c => .ok (twoFields c.1 c.2)
  ofValue := fun v => match v with
    | .object members =>
        match readRate (members.lookup "limits"), readSignature (members.lookup "program") with
        | some rate, some signature => .ok (rate, signature)
        | _, _ => .error "invalid type"
    | _ => .error "invalid type"
  validate := .ok
  authOf := fun c => .ok c.1
  requireSignature := fun c => c.2
  needsRestart := fun _ _ => false

theorem twoFields_sorted (rate : ℤ) (signature : Bool) :
    SortedKeys [("limits", JsonValue.object [("rest_rate_per_s", .int rate)]),
      ("program", JsonValue.object [("require_signature", .bool signature)])] := by
  show List.Pairwise (· < ·) ["limits", "program"]
  simp only [List.pairwise_cons, List.mem_singleton, forall_eq, List.not_mem_nil, false_imp_iff,
    implies_true, List.Pairwise.nil, and_true]
  decide

theorem single_ordered (name : String) {v : JsonValue} (hv : v.isObject = false) :
    (JsonValue.object [(name, v)]).Ordered := by
  refine .object (List.pairwise_singleton _ _) ?_
  intro k w hw
  rw [List.lookup_cons] at hw
  by_cases hk : (k == name) = true
  · rw [hk] at hw
    cases hw
    exact .leaf hv
  · rw [Bool.not_eq_true _ |>.mp hk] at hw
    cases hw

theorem twoFields_ordered (rate : ℤ) (signature : Bool) : (twoFields rate signature).Ordered := by
  refine .object (twoFields_sorted rate signature) ?_
  intro k w hw
  rw [lookup_eq_some_iff (twoFields_sorted rate signature).nodup] at hw
  rcases List.mem_cons.mp hw with heq | hw
  · cases heq
    exact single_ordered _ rfl
  · cases List.mem_singleton.mp hw
    exact single_ordered _ rfl

theorem twoField_accept (members : List (String × JsonValue)) :
    twoFieldCode.accept (.object members) = (readRate (members.lookup "limits")).bind fun rate =>
      (readSignature (members.lookup "program")).map fun signature => (rate, signature) := by
  show ((match readRate (members.lookup "limits"), readSignature (members.lookup "program") with
    | some rate, some signature => Except.ok (rate, signature)
    | _, _ => Except.error "invalid type" : Except String (ℤ × Bool)).toOption.bind
      fun c => (Except.ok c : Except String (ℤ × Bool)).toOption) = _
  rcases readRate (members.lookup "limits") with _ | rate
  · rfl
  · rcases readSignature (members.lookup "program") with _ | signature
    · rfl
    · rfl

theorem twoField_accept_leaf {v : JsonValue} (h : v.isObject = false) :
    twoFieldCode.accept v = none := by
  cases v with
  | object => cases h
  | _ => rfl

/-- What a patch makes of a section that is there. -/
theorem patched_some {cur : JsonValue} {p : Option JsonValue} (hcur : cur.Ordered)
    (hp : ∀ w ∈ p, w.Sets) : ∃ o, JsonValue.patched (some cur) p = some o ∧ o.Ordered := by
  rcases p with _ | w
  · exact ⟨cur, rfl, hcur⟩
  · have hw := hp w rfl
    exact ⟨cur.merge w, JsonValue.patched_set hw.ne_null, hcur.merge hw⟩

theorem twoField_lawful : twoFieldCode.Lawful where
  ordered := by
    rintro ⟨rate, signature⟩ v hv
    cases hv
    exact twoFields_ordered rate signature
  readBack := by
    rintro ⟨rate, signature⟩ ⟨rate', signature'⟩ v p q hv haccept hp hq -
    cases hv
    refine ⟨twoFields rate' signature', rfl, ?_⟩
    cases hq with
    | leaf _ hnot =>
        rw [JsonValue.merge_of_not_object (.inr hnot), twoField_accept_leaf hnot] at haccept
        cases haccept
    | @object mq hmq hqs =>
        have hv := JsonValue.mergeMembers_spec (twoFields_sorted rate signature) hmq
        have hmerge : (twoFields rate signature).merge (.object mq) = .object (JsonValue.mergeMembers
            [("limits", .object [("rest_rate_per_s", .int rate)]),
              ("program", .object [("require_signature", .bool signature)])] mq) :=
          JsonValue.merge_object
        rw [hmerge] at haccept ⊢
        generalize JsonValue.mergeMembers _ mq = y at haccept hv ⊢
        obtain ⟨hy, hlookup⟩ := hv
        obtain ⟨o₁, ho₁, hord₁⟩ := patched_some (p := mq.lookup "limits")
          (single_ordered "rest_rate_per_s" (v := .int rate) rfl) fun w hw => hqs _ w hw
        obtain ⟨o₂, ho₂, hord₂⟩ := patched_some (p := mq.lookup "program")
          (single_ordered "require_signature" (v := .bool signature) rfl) fun w hw => hqs _ w hw
        have h₁ : y.lookup "limits" = some o₁ := (hlookup "limits").trans ho₁
        have h₂ : y.lookup "program" = some o₂ := (hlookup "program").trans ho₂
        rw [twoField_accept, h₁, h₂] at haccept
        obtain ⟨r, hr, haccept⟩ := Option.bind_eq_some_iff.mp haccept
        obtain ⟨g, hg, heq⟩ := Option.map_eq_some_iff.mp haccept
        cases heq
        cases hp with
        | leaf _ hnot =>
            rw [JsonValue.merge_of_not_object (.inr hnot), JsonValue.merge_of_not_object (.inr hnot)]
        | @object mp hmp hps =>
            obtain ⟨-, hback⟩ := JsonValue.mergeMembers_spec (twoFields_sorted rate' signature') hmp
            obtain ⟨-, hread⟩ := JsonValue.mergeMembers_spec hy hmp
            have hmerge' : (twoFields rate' signature').merge (.object mp) =
                .object (JsonValue.mergeMembers
                  [("limits", .object [("rest_rate_per_s", .int rate')]),
                    ("program", .object [("require_signature", .bool signature')])] mp) :=
              JsonValue.merge_object
            rw [hmerge', JsonValue.merge_object, twoField_accept, twoField_accept, hback, hback, hread,
              hread, h₁, h₂]
            have hrate := @readSection_patched _ _ _ _ _ (.int rate') o₁ (mp.lookup "limits") hr hord₁
              (fun v hv => by cases v <;> first | rfl | cases hv) rfl fun w hw => hps _ w hw
            have hsignature := @readSection_patched _ _ _ _ _ (.bool signature') o₂
              (mp.lookup "program") hg hord₂
              (fun v hv => by cases v <;> first | rfl | cases hv) rfl fun w hw => hps _ w hw
            unfold readRate readSignature
            exact congrArg₂ (fun a b => Option.bind a fun rate => b.map fun signature =>
              (rate, signature)) hrate hsignature

/-! ## Two PATCHes -/

/-- `{"program":{"require_signature":true}}`. -/
def signaturePatch : JsonValue := .object [("program", .object [("require_signature", .bool true)])]

/-- `{"limits":{"rest_rate_per_s":60}}`. -/
def ratePatch : JsonValue := .object [("limits", .object [("rest_rate_per_s", .int 60)])]

/-- A PATCH of each field. -/
def twoPatches : Bool → ConfigRequest twoFieldCode
  | false => .patch signaturePatch
  | true => .patch ratePatch

theorem single_sets (name : String) {v : JsonValue} (hv : v.Sets) :
    (JsonValue.object [(name, v)]).Sets := by
  refine .object (List.pairwise_singleton _ _) ?_
  intro k w hw
  rw [List.lookup_cons] at hw
  by_cases hk : (k == name) = true
  · rw [hk] at hw
    cases hw
    exact hv
  · rw [Bool.not_eq_true _ |>.mp hk] at hw
    cases hw

theorem single_apart {name name' : String} (hne : name ≠ name') (v w : JsonValue) :
    (JsonValue.object [(name, v)]).Apart (.object [(name', w)]) := by
  refine .object ?_
  intro k x y hx hy
  rw [List.lookup_cons] at hx hy
  by_cases hk : k = name
  · rw [beq_eq_false_iff_ne.mpr (hk ▸ hne)] at hy
    cases hy
  · rw [beq_eq_false_iff_ne.mpr hk] at hx
    cases hx

theorem signaturePatch_sets : signaturePatch.Sets :=
  single_sets _ (single_sets _ (.leaf (fun h => by cases h) rfl))

theorem ratePatch_sets : ratePatch.Sets :=
  single_sets _ (single_sets _ (.leaf (fun h => by cases h) rfl))

theorem twoPatches_disjoined : Disjoined twoFieldCode twoPatches where
  sets := by
    intro i
    cases i
    · exact ⟨signaturePatch, rfl, signaturePatch_sets⟩
    · exact ⟨ratePatch, rfl, ratePatch_sets⟩
  apart := by
    intro i j p q hne hp hq
    cases i
    · cases j
      · exact absurd rfl hne
      · cases hp
        cases hq
        exact single_apart (by decide) _ _
    · cases j
      · cases hp
        cases hq
        exact single_apart (by decide) _ _
      · exact absurd rfl hne

namespace ConfigWorld

/-- One PATCH after the other. -/
def serialTurns : List (ConfigTurn Bool) :=
  List.replicate 6 (ConfigTurn.go false) ++ List.replicate 6 (ConfigTurn.go true)

/-- Both PATCHes read before the first of them writes. -/
def lostTurns : List (ConfigTurn Bool) :=
  [ConfigTurn.go false, ConfigTurn.go true] ++ List.replicate 5 (ConfigTurn.go false) ++
    List.replicate 5 (ConfigTurn.go true)

/-- A device with the defaults of the two fields. -/
def twoFieldStart : ConfigWorld twoFieldCode Bool := start ((30, false) : ℤ × Bool) (30 : ℤ) true

theorem serial_orderly : twoFieldStart.Orderly twoPatches serialTurns := by
  refine ⟨?_, ?_, ?_, ?_, ?_, ?_, ?_, ?_, ?_, ?_, ?_, ?_, trivial⟩
  all_goals
    intro base cfg auth restart hi
    cases hi
  · refine ⟨fun j => by cases j <;> rfl, fun b hb => ?_⟩
    cases hb
    rfl
  · refine ⟨fun j => by cases j <;> rfl, fun b hb => ?_⟩
    cases hb
    rfl

/-- Both changes are there. -/
theorem serial_kept : (twoFieldStart.run twoPatches serialTurns).config = ((60, true) : ℤ × Bool) ∧
    Kept twoPatches (30, false) (twoFieldStart.run twoPatches serialTurns) :=
  ⟨by rfl, config_updates_kept (by rfl) serial_orderly fun i => by cases i <;> rfl⟩

/-- **A lost update.** -/
theorem patch_lost : ¬∀ (ι : Type) [DecidableEq ι] (requests : ι → ConfigRequest twoFieldCode)
    (c₀ : twoFieldCode.Config) (a₀ : twoFieldCode.Auth) (path : Bool) (turns : List (ConfigTurn ι)),
    twoFieldCode.authOf c₀ = .ok a₀ →
    (∀ i, (((start c₀ a₀ path).run requests turns).stage i).finished = true) →
      Kept requests c₀ ((start c₀ a₀ path).run requests turns) := by
  intro h
  have hkept : Kept twoPatches ((30, false) : ℤ × Bool) (twoFieldStart.run twoPatches lostTurns) :=
    h Bool twoPatches ((30, false) : ℤ × Bool) (30 : ℤ) true lostTurns rfl
      fun i => by cases i <;> rfl
  have hcontains := hkept.2 twoField_lawful twoPatches_disjoined false signaturePatch false rfl rfl
  have hconfig : (twoFieldStart.run twoPatches lostTurns).config = ((60, false) : ℤ × Bool) := rfl
  have happlied : twoFieldCode.applied signaturePatch ((60, false) : ℤ × Bool) =
      some ((60, true) : ℤ × Bool) := rfl
  rw [hconfig] at hcontains
  cases happlied.symm.trans hcontains

end ConfigWorld

end SoftPlc.Api
