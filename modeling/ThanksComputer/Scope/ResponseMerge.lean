import Mathlib.Data.List.Induction
import ThanksComputer.Guard.Sanitize
import ThanksComputer.Merge.Refinement

/-! The two folds that merge a scope's op outputs into its envelope: the live one in `Run`, which
takes an output as `finishOutput` leaves it, and the one `Resume` makes over the stored
terminals. -/

universe u

namespace ThanksComputer.Scope

open Merge Guard

variable {F : Type u}

def isEmptyObject : Text F → Bool
  | [.lbrace, .rbrace] => true
  | _ => false

/-- A completed op's output as a terminal keeps it, with the transport that produced it. -/
structure Recorded (F : Type u) where
  transport : String
  output : Text F

variable (L : JsonLib F)

/-- What the trust projection leaves of an output. -/
def Recorded.projected (r : Recorded F) : Text F :=
  sanitizeTerminalOutput L r.transport r.output

/-- What the dispatch of an op came to, and the EMIT overlay of its rule. -/
structure Dispatched (F : Type u) where
  transport : String
  output : Text F
  emit : Text F → Text F

/-- What the op adds to a live scope: only an author's output is projected, and EMIT comes after. -/
def Dispatched.finishOutput (r : Dispatched F) : Text F :=
  let raw := extractOpDebug L r.output
  r.emit (if transportAuthorControlled r.transport then sanitizeAuthorOutputFor L r.transport raw
    else raw)

/-- What a barrier scope records of the same dispatch: the output with EMIT laid over it. -/
def Dispatched.recorded (r : Dispatched F) : Recorded F where
  transport := r.transport
  output := r.emit (if r.output.isEmpty then [.lbrace, .rbrace] else r.output)

/-- `Run` keeps the text that `MergeJSON` returns, also beside an error. -/
def runStep (resp out : Text F) : Text F :=
  if isEmptyObject out then resp else (mergeJSON L resp out).1

def runMerge (env : Text F) (outs : List (Text F)) : Text F :=
  outs.foldl (runStep L) env

/-- `Resume` keeps the envelope it had when `MergeJSON` returns an error. -/
def resumeStep (merged : Text F) (r : Recorded F) : Text F :=
  if r.output.isEmpty || isEmptyObject r.output then merged
  else
    match mergeJSON L merged (r.projected L) with
    | (m, none) => m
    | (_, some _) => merged

def resumeMerge (env : Text F) (rs : List (Recorded F)) : Text F :=
  rs.foldl (resumeStep L) env

def refuses (env out : Text F) : Bool :=
  (mergeJSON L env out).2.isSome

/-- An object member that meets a member of the envelope which is no object. -/
def conflicts (env : Text F) (k : String) (x : Json F) : Bool :=
  x.isObject && (L.get env k).any fun v => !(v.value L.dup).isObject

/-- The output is accepted, or it is an object whose first member already conflicts. -/
def AcceptedOrFirst (env out : Text F) : Prop :=
  refuses L env out = false ∨
    isObjectText env = true ∧ isObjectText out = true ∧
      ∃ k x ms, L.each out = (k, x) :: ms ∧ conflicts L env k x = true

variable {L}

theorem mergeMember_of_conflicts {env : Text F} {k : String} {x : Json F}
    (h : conflicts L env k x = true) : mergeMember L env k x = none := by
  rw [conflicts, Bool.and_eq_true] at h
  cases x with
  | obj ms =>
    cases hget : L.get env k with
    | none => simp [hget] at h
    | some v =>
      have hv : (v.value L.dup).isObject = false := by simpa [hget] using h.2
      cases hval : v.value L.dup with
      | obj ns =>
        rw [hval] at hv
        cases hv
      | null | bool | num | str | arr => simp [mergeMember, hget, hval]
  | null | bool | num | str | arr => cases h.1

theorem not_isEmpty_of_isObjectText {t : Text F} (h : isObjectText t = true) :
    t.isEmpty = false := by
  cases t with
  | nil => cases h
  | cons x t => rfl

theorem mergeJSON_text_of_acceptedOrFirst {env out : Text F} (h : AcceptedOrFirst L env out)
    (href : refuses L env out = true) : (mergeJSON L env out).1 = env := by
  rcases h with h | ⟨henv, hout, k, x, ms, hms, hconf⟩
  · rw [h] at href
    cases href
  · have hne := not_isEmpty_of_isObjectText henv
    have hne' := not_isEmpty_of_isObjectText hout
    simp [mergeJSON_eq_slow, mergeJSONSlow, henv, hout, hne, hne', hms, mergeMembers,
      mergeMember_of_conflicts hconf]

/-- The step leaves both folds with one envelope: the recorded output is projected to what the live
scope merges.  The last part is about an envelope that an earlier output emptied: there an output
that projects to an empty object replaces it. -/
structure StepOk (L : JsonLib F) (env : Text F) (r : Dispatched F) : Prop where
  accepted : AcceptedOrFirst L env (r.finishOutput L)
  alike : r.recorded.projected L = r.finishOutput L
  started : env.isEmpty = true → isEmptyObject (r.recorded.projected L) = true →
    isEmptyObject r.recorded.output = true

theorem mergeJSON_nil (env : Text F) : mergeJSON L env [] = (env, none) := by
  simp [mergeJSON_eq_slow, mergeJSONSlow]

theorem mergeJSON_emptyObject {env out : Text F} (hne : env.isEmpty = false)
    (h : isEmptyObject out = true) :
    mergeJSON L env out = (env, none) ∨ ∃ t e, mergeJSON L env out = (t, some e) := by
  match out, h with
  | [.lbrace, .rbrace], _ =>
    rw [mergeJSON_eq_slow, mergeJSONSlow]
    cases hobj : isObjectText env with
    | true =>
      simp only [hne]
      exact .inl rfl
    | false =>
      simp only [hne]
      exact .inr ⟨_, _, rfl⟩

theorem projected_of_isEmpty {r : Recorded F} (h : r.output.isEmpty = true) :
    r.projected L = [] := by
  rw [List.isEmpty_iff] at h
  rw [Recorded.projected, sanitizeTerminalOutput, h]
  split
  · rw [sanitizeAuthorOutputFor_eq]
    rfl
  · rfl

theorem projected_of_isEmptyObject {r : Recorded F} (h : isEmptyObject r.output = true) :
    r.projected L = r.output := by
  rw [Recorded.projected, sanitizeTerminalOutput]
  match r.output, h with
  | [.lbrace, .rbrace], _ =>
    rw [sanitizeAuthorOutputFor_eq]
    split <;> rfl

theorem resumeStep_of_refuses {env : Text F} {r : Recorded F}
    (h : refuses L env (r.projected L) = true) : resumeStep L env r = env := by
  rw [refuses] at h
  rw [resumeStep]
  split
  · rfl
  · split
    · next m heq =>
      rw [heq] at h
      cases h
    · rfl

theorem runStep_of_refuses {env out : Text F} (hok : AcceptedOrFirst L env out)
    (h : refuses L env out = true) : runStep L env out = env := by
  rw [runStep]
  split
  · rfl
  · exact mergeJSON_text_of_acceptedOrFirst hok h

theorem runStep_eq_resumeStep {env : Text F} {r : Recorded F}
    (hok : AcceptedOrFirst L env (r.projected L))
    (hempty : env.isEmpty = true → isEmptyObject (r.projected L) = true →
      isEmptyObject r.output = true) :
    runStep L env (r.projected L) = resumeStep L env r := by
  cases href : refuses L env (r.projected L) with
  | true => rw [runStep_of_refuses hok href, resumeStep_of_refuses href]
  | false =>
    have hnone : (mergeJSON L env (r.projected L)).2 = none := by
      rw [refuses, Option.isSome_eq_false_iff, Option.isNone_iff_eq_none] at href
      exact href
    have hpair : mergeJSON L env (r.projected L) = ((mergeJSON L env (r.projected L)).1, none) :=
      Prod.ext rfl hnone
    rw [resumeStep, runStep]
    by_cases hraw : r.output.isEmpty = true
    · rw [projected_of_isEmpty hraw, mergeJSON_nil]
      simp [hraw, isEmptyObject]
    · by_cases hobj : isEmptyObject r.output = true
      · simp [projected_of_isEmptyObject hobj, hobj]
      · have hskip : (r.output.isEmpty || isEmptyObject r.output) = false := by
          rw [Bool.not_eq_true] at hraw hobj
          rw [hraw, hobj]
          rfl
        rw [hskip]
        simp only [Bool.false_eq_true, if_false]
        rw [hpair]
        split
        · next hproj =>
          have hne : env.isEmpty = false := by
            cases hnil : env.isEmpty with
            | false => rfl
            | true => exact absurd (hempty hnil hproj) hobj
          rcases mergeJSON_emptyObject (L := L) hne hproj with heq | ⟨t, e, heq⟩
          · rw [heq]
          · rw [heq] at hnone
            cases hnone
        · rfl

/-- In a fold over op outputs, a refused output leaves the envelope as it was and the others merge
as if it had not been there. -/
def RefusedAbsent {ρ : Type u} (fold : List ρ → Text F) (refused : Text F → ρ → Bool)
    (rs : List ρ) : Prop :=
  ∀ pre r post, rs = pre ++ r :: post → refused (fold pre) r = true →
    fold (pre ++ [r]) = fold pre ∧ fold (pre ++ r :: post) = fold (pre ++ post)

theorem refusedAbsent_foldl {ρ : Type u} {step : Text F → ρ → Text F}
    {refused : Text F → ρ → Bool} {env : Text F} {rs : List ρ}
    (h : ∀ pre r post, rs = pre ++ r :: post → refused (pre.foldl step env) r = true →
      step (pre.foldl step env) r = pre.foldl step env) :
    RefusedAbsent (fun rs => rs.foldl step env) refused rs := by
  intro pre r post hrs href
  have hstep := h pre r post hrs href
  constructor
  · simp only [List.foldl_append, List.foldl_cons, List.foldl_nil, hstep]
  · simp only [List.foldl_append, List.foldl_cons, hstep]

theorem StepOk.run_eq {env : Text F} {r : Dispatched F} (h : StepOk L env r) :
    runStep L env (r.finishOutput L) = resumeStep L env r.recorded := by
  rw [← h.alike]
  exact runStep_eq_resumeStep (h.alike ▸ h.accepted) h.started

/-- The live fold over what the dispatches came to. -/
def runOps (L : JsonLib F) (env : Text F) (rs : List (Dispatched F)) : Text F :=
  runMerge L env (rs.map (Dispatched.finishOutput L))

theorem runOps_eq_foldl (env : Text F) (rs : List (Dispatched F)) :
    runOps L env rs = rs.foldl (fun resp r => runStep L resp (r.finishOutput L)) env := by
  rw [runOps, runMerge, List.foldl_map]

theorem runOps_eq_resumeMerge {env : Text F} {rs : List (Dispatched F)}
    (h : ∀ pre r post, rs = pre ++ r :: post → StepOk L (runOps L env pre) r) :
    runOps L env rs = resumeMerge L env (rs.map Dispatched.recorded) := by
  induction rs using List.reverseRecOn with
  | nil => rfl
  | append_singleton rs r ih =>
    have hlast := h rs r [] rfl
    have hrs := ih fun pre q post heq => h pre q (post ++ [r]) (by simp [heq])
    calc runOps L env (rs ++ [r]) = runStep L (runOps L env rs) (r.finishOutput L) := by
          simp [runOps_eq_foldl]
      _ = resumeStep L (resumeMerge L env (rs.map Dispatched.recorded)) r.recorded := by
          rw [hlast.run_eq, hrs]
      _ = resumeMerge L env ((rs ++ [r]).map Dispatched.recorded) := by simp [resumeMerge]

/-- Without EMIT and debug content, an output is recorded as the live scope merges it if an author
controls its transport, or if it writes no reserved path but those of the trusted list. -/
theorem alike_iff {r : Dispatched F} (hemit : r.emit = id) (hne : r.output.isEmpty = false)
    (hdebug : extractOpDebug L r.output = r.output) :
    r.recorded.projected L = r.finishOutput L ↔
      transportAuthorControlled r.transport = true ∨
        sanitizeTrustedOutput L r.output = r.output := by
  rw [Recorded.projected, Dispatched.recorded, Dispatched.finishOutput, sanitizeTerminalOutput,
    hemit,
    hdebug, hne]
  cases transportAuthorControlled r.transport with
  | true => simp
  | false => simp

theorem runStep_of_not_object {env out : Text F} (henv : env.isEmpty = false)
    (hout : out.isEmpty = false) (hobj : isObjectText out = false) :
    refuses L env out = true ∧ runStep L env out = [] := by
  have hmerge : mergeJSON L env out = ([], some .notObjects) := by
    simp [mergeJSON_eq_slow, mergeJSONSlow, henv, hout, hobj]
  have hskip : isEmptyObject out = false := by
    cases out with
    | nil => rfl
    | cons x t =>
      cases x with
      | lbrace => cases hobj
      | ws | rbrace | comma | colon | key | val | junk => rfl
  simp [refuses, runStep, hmerge, hskip]

/-- The answer `[1]` of an HTTP op. -/
def arrayAnswer : Dispatched Int :=
  ⟨"http", [.val "[1]" (.arr [.num 1])], id⟩

end ThanksComputer.Scope
