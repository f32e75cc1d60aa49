import LiveQuiz.Authoring.Service
import LiveQuiz.Lib.Json
import Mathlib.Data.List.Infix

/-! # The banned-words policy

`_load_policy` and `scan_text`: a finding for every banned word that a text contains, and one
for every pattern that is found in it.
-/

namespace LiveQuiz.Intake

set_option autoImplicit false

structure Flag where
  reason : String
  context : String
  matched : String
  details : List (String × String)
  deriving DecidableEq, Repr

/-- Python's `str.lower` and `str.strip`, `str` of a value that counts as true and is no
string, and `re.compile` with IGNORECASE: the `search` of the pattern, with the match. -/
structure Text where
  lower : String → String
  strip : String → String
  str : Json.Value → Option String
  compile : String → Option (String → Option String)

structure Policy where
  words : List String
  patterns : List (String × (String → Option String))

def Policy.empty : Policy := ⟨[], []⟩

section

variable (T : Text)

def loadWord : Json.Value → Option String
  | .str w => if T.strip w = "" then none else some (T.lower (T.strip w))
  | _ => none

/-- `str(p.get("name") or "pattern")`. -/
def patternName : Option Json.Value → String
  | some (.str "") | none => "pattern"
  | some (.str name) => name
  | some v => (T.str v).getD "pattern"

def loadPattern : Json.Value → Option (String × (String → Option String))
  | .obj p =>
    match p.lookup "regex" with
    | some (.str source) => (T.compile source).map fun search => (patternName T (p.lookup "name"), search)
    | _ => none
  | _ => none

/-- What a loop over `data.get(key) or []` goes through; none where it raises. -/
def entries (data : List (String × Json.Value)) (key : String) : Option (List Json.Value) :=
  match data.lookup key with
  | none | some .null | some (.bool false) | some (.int 0) => some []
  | some (.arr xs) => some xs
  | some (.str s) => some (s.toList.map fun c => .str (String.singleton c))
  | some (.obj items) => some (items.map fun item => .str item.1)
  | _ => none

/-- The object in the policy file, if there is one and it can be read; none where the import
of the module raises. -/
def loadPolicy : Option (List (String × Json.Value)) → Option Policy
  | none => some .empty
  | some data => do
    let words ← entries data "words"
    let patterns ← entries data "patterns"
    return ⟨words.filterMap (loadWord T), patterns.filterMap (loadPattern T)⟩

def occurs (word text : String) : Bool := decide (word.toList <:+: text.toList)

def wordFlag (context word : String) : Flag := ⟨"banned_word", context, word, [("strategy", "substring")]⟩

def patternFlag (context name matched : String) : Flag :=
  ⟨"banned_pattern", context, matched, [("pattern", name), ("strategy", "regex")]⟩

def scanText (policy : Policy) (text : Option String) (context : String) : List Flag :=
  match text with
  | none | some "" => []
  | some text =>
    (policy.words.filter fun word => word ≠ "" && occurs word (T.lower text)).map (wordFlag context) ++
      policy.patterns.filterMap fun p => (p.2 text).map (patternFlag context p.1)

/-- The texts of a quiz, with their labels. -/
def fieldsToScan (quiz : Authoring.Quiz) (questions : List Question) (options : List AnswerOption) :
    List (String × Option String) :=
  [("quiz.title", some quiz.title), ("quiz.description", quiz.description)] ++
    questions.flatMap fun q =>
      let label := "question." ++ toString q.position
      (label ++ ".body", some q.body) ::
        (Authoring.optionsIn options q).map fun o =>
          (label ++ ".option." ++ toString o.position ++ ".body", some o.body)

def flatFlags (policy : Policy) (fields : List (String × Option String)) : List Flag :=
  fields.flatMap fun field => scanText T policy field.2 field.1

variable {T} {policy : Policy} {text context word : String}

theorem wordFlag_mem_scanText (hWord : word ∈ policy.words) (hNonempty : word ≠ "")
    (hOccurs : occurs word (T.lower text) = true) (hText : text ≠ "") :
    wordFlag context word ∈ scanText T policy (some text) context := by
  unfold scanText
  split
  next hNone => cases hNone
  next hEmpty =>
    cases hEmpty
    exact absurd rfl hText
  next hSome =>
    cases hSome
    refine List.mem_append_left _ (List.mem_map.mpr ⟨word, List.mem_filter.mpr ⟨hWord, ?_⟩, rfl⟩)
    simp [hNonempty, hOccurs]

theorem scanText_sound {f : Flag} (h : f ∈ scanText T policy (some text) context) :
    (∃ word ∈ policy.words, word ≠ "" ∧ occurs word (T.lower text) = true ∧ f = wordFlag context word) ∨
    ∃ p ∈ policy.patterns, ∃ m, p.2 text = some m ∧ f = patternFlag context p.1 m := by
  unfold scanText at h
  split at h
  · cases h
  · cases h
  next hSome =>
    cases hSome
    obtain hWord | hPattern := List.mem_append.mp h
    · obtain ⟨word, hMem, rfl⟩ := List.mem_map.mp hWord
      obtain ⟨hIn, hBoth⟩ := List.mem_filter.mp hMem
      obtain ⟨hNonempty, hOccurs⟩ := Bool.and_eq_true_iff.mp hBoth
      exact .inl ⟨word, hIn, of_decide_eq_true hNonempty, hOccurs, rfl⟩
    · obtain ⟨p, hIn, hFlag⟩ := List.mem_filterMap.mp hPattern
      obtain ⟨m, hFound, rfl⟩ := Option.map_eq_some_iff.mp hFlag
      exact .inr ⟨p, hIn, m, hFound, rfl⟩

end

end LiveQuiz.Intake
