import ThanksComputer.Drive.Path
import ThanksComputer.Guard.Paths

/-! The conditional headers of a write (drive/resources.go): lists of entity tags. -/

namespace ThanksComputer.Drive

structure ETagEntry where
  tag : List Char
  weak : Bool
  deriving DecidableEq

def stripWeak : List Char → Bool × List Char
  | 'W' :: '/' :: v => (true, v)
  | v => (false, v)

/-- What stands before the first `c`, and the rest from there. -/
def cutAt (c : Char) (v : List Char) : List Char × List Char :=
  (v.takeWhile (· != c), v.dropWhile (· != c))

/-- The entry at the head of a list, and the rest of the list.  A comma inside quotes is part of the
tag, and an unterminated quote ends the list. -/
def nextETag (v : List Char) : ETagEntry × List Char :=
  let (weak, v) := stripWeak v
  match v with
  | '"' :: quoted =>
    if '"' ∈ quoted then (⟨(cutAt '"' quoted).1, weak⟩, (cutAt '"' quoted).2.tail)
    else (⟨[], weak⟩, [])
  | bare => (⟨Guard.trimSpace (cutAt ',' bare).1, weak⟩, (cutAt ',' bare).2)

theorem length_nextETag_lt {c : Char} (hc : c ≠ ',') (rest : List Char) :
    (nextETag (c :: rest)).2.length < (c :: rest).length := by
  have hcut : ∀ (d : Char) (v : List Char), (cutAt d v).2.length ≤ v.length :=
    fun d v => List.length_dropWhile_le _ _
  have hafter : ∀ (weak : Bool) (v : List Char), v.length < (c :: rest).length ∨ v = c :: rest →
      stripWeak (c :: rest) = (weak, v) → (nextETag (c :: rest)).2.length < (c :: rest).length := by
    intro weak v hv hstrip
    unfold nextETag
    rw [hstrip]
    dsimp only
    split
    · next quoted =>
      have hlen : quoted.length < (c :: rest).length := by
        rcases hv with hv | hv
        · exact Nat.lt_of_succ_lt hv
        · rw [← hv]
          exact Nat.lt_succ_self _
      split
      · rw [List.length_tail]
        have := hcut '"' quoted
        omega
      · exact Nat.succ_pos _
    · rcases hv with hv | rfl
      · exact Nat.lt_of_le_of_lt (hcut ',' v) hv
      · have hdrop : (cutAt ',' (c :: rest)).2 = (cutAt ',' rest).2 := by
          simp [cutAt, hc]
        rw [hdrop]
        exact Nat.lt_succ_of_le (hcut ',' rest)
  unfold stripWeak at hafter
  split at hafter
  · next v h =>
    refine hafter true v (.inl ?_) rfl
    rw [h]
    simp only [List.length_cons]
    omega
  · exact hafter false _ (.inr rfl) rfl

/-- The loop of `parseETagList`. -/
def scanETags : List Char → List ETagEntry
  | [] => []
  | c :: rest =>
    if _hsep : c = ',' ∨ c = ' ' ∨ c = '\t' then scanETags rest
    else
      let entry := (nextETag (c :: rest)).1
      if entry.tag = [] then scanETags (nextETag (c :: rest)).2
      else entry :: scanETags (nextETag (c :: rest)).2
termination_by v => v.length
decreasing_by
  · simp
  · exact length_nextETag_lt (fun h => _hsep (.inl h)) rest
  · exact length_nextETag_lt (fun h => _hsep (.inl h)) rest

def parseETagList (v : List Char) : List ETagEntry :=
  match Guard.trimSpace v with
  | [] => []
  | ['*'] => [⟨['*'], false⟩]
  | v => scanETags v

def checkIfMatch (ifMatch : List Char) (live : Bool) (etag : List Char) : Except DriveError Unit :=
  let entries := parseETagList ifMatch
  if entries.isEmpty then .ok ()
  else if !live then .error .precondition
  else if entries.any fun e => e.tag == ['*'] || !e.weak && e.tag == etag then .ok ()
  else .error .precondition

def noneMatch (ifNoneMatch etag : List Char) : Bool :=
  (parseETagList ifNoneMatch).any fun e => e.tag == ['*'] || e.tag == etag

def checkIfNoneMatch (ifNoneMatch : List Char) (live : Bool) (etag : List Char) :
    Except DriveError Unit :=
  if live && noneMatch ifNoneMatch etag then .error .precondition else .ok ()

def checkPreconditions (ifMatch ifNoneMatch : List Char) (live : Bool) (etag : List Char) :
    Except DriveError Unit := do
  checkIfNoneMatch ifNoneMatch live etag
  checkIfMatch ifMatch live etag

end ThanksComputer.Drive
