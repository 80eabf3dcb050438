import TreeWasm.Settings.Basic

/-! # Flags

Of the flags about one thing the last has its way, and flags that name a warning come before those
for many warnings, wherever they stand. One flag is not like this: the one that should switch the
pedantic warning off switches all warnings on.
-/

namespace TreeWasm

inductive Topic
  | all
  | warning (which : Warning)
  | feature (which : Feature)
  deriving DecidableEq

/-- A flag as it is written. -/
structure WrittenFlag where
  dash : Bool
  topic : Topic
  on : Bool
  deriving DecidableEq

namespace WrittenFlag

def text (x : WrittenFlag) : String :=
  let lead := if x.dash then "-" else ""
  let no := if x.on then "" else "no-"
  match x.topic with
  | .all => lead ++ "W" ++ no ++ "all"
  | .warning which => lead ++ "W" ++ no ++ which.name
  | .feature which => lead ++ "F" ++ no ++ which.name

/-- Whether the flag is for many warnings. -/
def isCatchAll (x : WrittenFlag) : Bool := x.topic = .all ∨ x.topic = .warning .pedantic ∧ x.on

/-- What the flag says of a feature. -/
def ofFeature (f : Feature) (x : WrittenFlag) : Option Bool :=
  if x.topic = .feature f then some x.on else none

/-- What the flag says of a warning by its name. -/
def ofWarning (w : Warning) (x : WrittenFlag) : Option Bool :=
  if x.topic = .warning w ∧ x.isCatchAll = false then some x.on else none

/-- What the flag says of a warning as one of many. -/
def ofMany (w : Warning) (x : WrittenFlag) : Option Bool :=
  if x.isCatchAll ∧ (x.topic = .all → w ≠ .pedantic) then some x.on else none

/-- What the flag says of a warning. -/
def ofAny (w : Warning) (x : WrittenFlag) : Option Bool := (ofWarning w x).or (ofMany w x)

/-- What is said by the last of the flags that say something. -/
def said (tells : WrittenFlag → Option Bool) (flags : List WrittenFlag) : Option Bool :=
  (flags.filterMap tells).getLast?

/-- The catch-alls, and after them the other flags. -/
def arranged (flags : List WrittenFlag) : List WrittenFlag :=
  flags.filter isCatchAll ++ flags.filter (!isCatchAll ·)

def flag (x : WrittenFlag) : Flag :=
  match x.topic with
  | .all => .allWarnings x.on
  | .warning which => if which = .pedantic then .everyWarning else .warning which x.on
  | .feature which => .feature which x.on

/-- The text of a flag is read as the flag, and put among the catch-alls if it is one. -/
theorem read_text (x : WrittenFlag) :
    (Flag.ofText x.text).toOption = some x.flag ∧ Flag.isEarly x.text = x.isCatchAll := by
  obtain ⟨dash, topic, on⟩ := x
  cases topic with
  | all => cases dash <;> cases on <;> decide +kernel
  | warning which | feature which => cases which <;> cases dash <;> cases on <;> decide +kernel

theorem ofText_text (x : WrittenFlag) : Flag.ofText x.text = .ok x.flag := by
  have h := x.read_text.1
  cases hread : Flag.ofText x.text with
  | error fault =>
    rw [hread] at h
    cases h
  | ok flag =>
    rw [hread] at h
    rw [Option.some.inj h]

theorem said_cons (tells : WrittenFlag → Option Bool) (x : WrittenFlag) (flags : List WrittenFlag)
    (start : Bool) :
    (said tells (x :: flags)).getD start = (said tells flags).getD ((tells x).getD start) := by
  rw [said, said, List.filterMap_cons]
  cases tells x with
  | none => rfl
  | some on =>
    rw [List.getLast?_cons]
    cases (flags.filterMap tells).getLast? <;> rfl

/-- In the order in which they are applied, flags say what the others say, or else what the catch-alls
say. -/
theorem said_arranged {tells one many : WrittenFlag → Option Bool}
    (hone : (fun x => if !x.isCatchAll then tells x else none) = one)
    (hmany : (fun x => if x.isCatchAll then tells x else none) = many) (flags : List WrittenFlag) :
    said tells (arranged flags) = (said one flags).or (said many flags) := by
  rw [said, arranged, List.filterMap_append, List.getLast?_append, List.filterMap_filter,
    List.filterMap_filter, hone, hmany, said, said]

theorem said_ofFeature_arranged (f : Feature) (flags : List WrittenFlag) :
    said (ofFeature f) (arranged flags) = said (ofFeature f) flags := by
  have hmany : said (fun _ => none) flags = none := by
    rw [said, List.filterMap_eq_nil_iff.mpr (fun _ _ => rfl), List.getLast?_nil]
  rw [said_arranged (show _ = ofFeature f by grind [ofFeature, isCatchAll])
    (show _ = fun _ => none by grind [ofFeature, isCatchAll]), hmany, Option.or_none]

theorem said_ofAny_arranged (w : Warning) (flags : List WrittenFlag) :
    said (ofAny w) (arranged flags) = (said (ofWarning w) flags).or (said (ofMany w) flags) :=
  said_arranged (by grind [ofAny, ofWarning, ofMany]) (by grind [ofAny, ofWarning, ofMany]) flags

end WrittenFlag

namespace Settings

open WrittenFlag

variable {s : Settings} {flags : List WrittenFlag}

theorem applyAll_text (s : Settings) :
    s.applyAll (flags.map text) = (flags.foldl (fun s x => s.apply x.flag) s, none) := by
  induction flags generalizing s with
  | nil => rfl
  | cons x flags ih =>
    rw [List.map_cons, applyAll, ofText_text]
    exact ih (s.apply x.flag)

theorem process_map_text :
    s.process (flags.map text) = ((arranged flags).foldl (fun s x => s.apply x.flag) s, none) := by
  have hearly : Flag.isEarly ∘ text = isCatchAll := funext (fun x => x.read_text.2)
  have hlate : (fun t => !Flag.isEarly t) ∘ text = (!isCatchAll ·) :=
    funext (fun x => congrArg _ x.read_text.2)
  rw [process, List.filter_map, List.filter_map, hearly, hlate, ← List.map_append, applyAll_text, arranged]

theorem apply_flag {x : WrittenFlag} (h : x.topic = .warning .pedantic → x.on) : s.apply x.flag = { s with
      features := fun f => (ofFeature f x).getD (s.features f)
      warnings := fun w => (ofAny w x).getD (s.warnings w) } := by
  have hrest : s.apply x.flag = { s with
      features := (s.apply x.flag).features, warnings := (s.apply x.flag).warnings } := by
    cases x.flag <;> rfl
  have hfeatures (f : Feature) : (s.apply x.flag).features f = (ofFeature f x).getD (s.features f) := by
    grind [flag, apply, ofFeature, setFeature, setWarning]
  have hwarnings (w : Warning) : (s.apply x.flag).warnings w = (ofAny w x).getD (s.warnings w) := by
    grind [flag, apply, ofAny, ofWarning, ofMany, isCatchAll, setFeature, setWarning]
  rw [funext hfeatures, funext hwarnings] at hrest
  exact hrest

theorem foldl_apply (h : ∀ x ∈ flags, x.topic = .warning .pedantic → x.on) :
    flags.foldl (fun s x => s.apply x.flag) s = { s with
      features := fun f => (said (ofFeature f) flags).getD (s.features f)
      warnings := fun w => (said (ofAny w) flags).getD (s.warnings w) } := by
  induction flags generalizing s with
  | nil => rfl
  | cons x flags ih =>
    rw [List.forall_mem_cons] at h
    simp only [List.foldl_cons, ih h.2, apply_flag h.1, said_cons]

/-- Where no flag is to switch the pedantic warning off: what flags do to settings, and that the
catch-alls among them may be moved about. -/
theorem process_text (s : Settings) (flags : List WrittenFlag)
    (h : ∀ x ∈ flags, x.topic = .warning .pedantic → x.on) :
    s.process (flags.map text) = ({ s with
      features := fun f => (said (ofFeature f) flags).getD (s.features f)
      warnings := fun w =>
        ((said (ofWarning w) flags).or (said (ofMany w) flags)).getD (s.warnings w) }, none) ∧
    ∀ flags' : List WrittenFlag, flags'.filter isCatchAll = flags.filter isCatchAll →
      flags'.filter (!isCatchAll ·) = flags.filter (!isCatchAll ·) →
      s.process (flags'.map text) = s.process (flags.map text) := by
  refine ⟨?_, fun flags' hearly hlate => ?_⟩
  · have hproper : ∀ x ∈ arranged flags, x.topic = .warning .pedantic → x.on := by
      grind [arranged]
    simp only [process_map_text, foldl_apply hproper, said_ofFeature_arranged, said_ofAny_arranged]
  · rw [process_map_text, process_map_text, arranged, hearly, hlate, arranged]

theorem process_text_overridden :
    (initial.process ["Wno-dead-branch", "-Wall"]).1.warnings .deadBranch = false := by
  have h := (process_text initial [⟨false, .warning .deadBranch, false⟩, ⟨true, .all, true⟩] (by decide)).1
  exact congrArg (fun result => result.1.warnings .deadBranch) h

theorem process_pedantic_off : (initial.process ["Wno-pedantic"]).1.warnings .pedantic := by
  decide +kernel

end Settings

end TreeWasm
