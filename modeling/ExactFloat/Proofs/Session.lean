import ExactFloat.Proofs.Construction
import ExactFloat.Proofs.ToFraction
import ExactFloat.Session

/-!
# The range flag over whole sessions

The flag of a context has a history. It is up at the end of a session exactly if, since it was last
taken down, a step put it up or asked for the fraction of a float that has none. Observers see just
these questions and the roundings of numbers other than zero. Rounding never makes a float without a
value, so that a session which starts without one and is given none keeps the flag down.
-/

namespace ExactFloat

open ExactFloat.Action

/-! ## Conversions -/

namespace BinaryFloat

theorem isFinite_eq (f : BinaryFloat) : f.isFinite = !(f.isNaN || f.isInfinite) := by
  unfold isFinite isNormal isZero isNaN isInfinite
  cases f.category <;> rfl

theorem normal_of_ofFraction {format : Format} {mode : Mode} {q : Fraction} {f : BinaryFloat}
    {direction : Ordering} (run : ofFraction format mode q = .ok (f, direction)) :
    f.isNormal = !q.isZero ∧ f.isFinite = true := by
  obtain ⟨-, r, canonical, made⟩ := parts_of_ofFraction run
  rw [← Fraction.isZero_of_canonical canonical]
  obtain ⟨zero, rfl, -⟩ | ⟨nonzero, -, rounded, -, -, rfl, -⟩ := made
  · rw [zero]
    exact ⟨rfl, rfl⟩
  · rw [nonzero]
    exact ⟨rfl, rfl⟩

theorem normal_of_ofMagnitude {format : Format} {negative : Bool} {value : Magnitude}
    {f : BinaryFloat} {direction : Ordering}
    (run : ofMagnitude format negative value = .ok (f, direction)) :
    f.isNormal = !value.isZero ∧ f.isFinite = true := by
  obtain ⟨q, zero, rounding⟩ := exists_ofFraction_of_ofMagnitude run
  rw [← zero]
  exact normal_of_ofFraction rounding

theorem isFinite_of_ofParts {format : Format} {negative : Bool} {exponent : Int}
    {significand : Magnitude} {f : BinaryFloat}
    (run : ofParts format negative exponent significand = .ok f) : f.isFinite = true := by
  obtain ⟨-, rfl | ⟨-, -, rfl⟩⟩ := parts_of_ofParts run <;> rfl

end BinaryFloat

/-! ## What is reported -/

theorem Event.level_ofRounding {outcome : Outcome (BinaryFloat × Ordering)} {nonzero : Bool}
    (normal : ∀ f direction, outcome = .ok (f, direction) → f.isNormal = nonzero) :
    (ofRounding outcome).map level = if outcome.isOk && nonzero then ["TRACE"] else [] := by
  cases outcome with
  | error _ => rfl
  | ok result =>
      obtain ⟨f, direction⟩ := result
      rw [ofRounding, normal f direction rfl]
      cases nonzero <;> rfl

theorem isOk_map {α β : Type} (f : α → β) (outcome : Outcome α) :
    (outcome.map f).isOk = outcome.isOk := by
  cases outcome <;> rfl

/-- Every float is converted. Where it has no value, the flag goes up and one event says so. -/
theorem Observed.exists_runFrom_toFraction (f : BinaryFloat) (context : Context)
    (events : List Event) :
    ∃ q told, (toFraction f).runFrom (context, events) =
        (.ok q, ⟨context.rangeError || (f.isNaN || f.isInfinite)⟩, events ++ told) ∧
      told.map Event.level = if f.isNaN || f.isInfinite then ["DEBUG"] else [] := by
  have silent (finite : f.isFinite = true) :
      (f.isNaN || f.isInfinite) = false ∧ ∃ q, f.ConvertsTo q := by
    refine ⟨?_, BinaryFloat.exists_convertsTo finite⟩
    rwa [BinaryFloat.isFinite_eq, Bool.not_eq_true'] at finite
  cases category : f.category with
  | nan | infinity =>
      refine ⟨.zero, [.noValue f.category f.negative], ?_, ?_⟩
      · simp only [toFraction, category, BinaryFloat.isNaN, BinaryFloat.isInfinite]
        simp only [reduceCtorEq, decide_false, decide_true, Bool.true_or, Bool.or_true]
        rfl
      · simp [BinaryFloat.isNaN, BinaryFloat.isInfinite, category, Event.level]
  | normal | zero =>
      obtain ⟨none, q, converts⟩ := silent (BinaryFloat.isFinite_iff.2 (by simp [category]))
      refine ⟨q, [], ?_, ?_⟩
      · rw [converts.run, none, Bool.or_false, List.append_nil]
      · rw [none]
        rfl

/-! ## Sources of floats -/

namespace Source

def roundsNonzero : Source → Bool
  | unsigned _ value => value != 0
  | signed _ value => value != 0
  | fraction _ q => !q.isZero
  | neg source => source.roundsNonzero
  | _ => false

def lacksValue : Source → Bool
  | infinity .. => true
  | nan .. => true
  | neg source => source.lacksValue
  | _ => false

/-- The outcome of a source, with the events that go with it. -/
structure Spec (source : Source) (outcome : Outcome BinaryFloat) (told : List Event) : Prop where
  gives : (source.float : Observed Session BinaryFloat).Gives outcome told
  levels : told.map Event.level = if outcome.isOk && source.roundsNonzero then ["TRACE"] else []
  finite : ∀ f, outcome = .ok f → f.isFinite = !source.lacksValue

variable {source : Source}

theorem spec_of_silent {outcome : Outcome BinaryFloat}
    (gives : (source.float : Observed Session BinaryFloat).Gives outcome [])
    (silent : source.roundsNonzero = false)
    (finite : ∀ f, outcome = .ok f → f.isFinite = !source.lacksValue) : source.Spec outcome [] where
  gives := gives
  levels := by rw [silent, Bool.and_false]; rfl
  finite := finite

theorem spec_of_rounding {outcome : Outcome (BinaryFloat × Ordering)}
    (gives : (source.float : Observed Session BinaryFloat).Gives (outcome.map Prod.fst)
      (Event.ofRounding outcome))
    (made : ∀ f direction, outcome = .ok (f, direction) →
      f.isNormal = source.roundsNonzero ∧ f.isFinite = true)
    (value : source.lacksValue = false) :
    source.Spec (outcome.map Prod.fst) (Event.ofRounding outcome) where
  gives := gives
  levels := by
    rw [isOk_map]
    exact Event.level_ofRounding fun f direction run => (made f direction run).1
  finite f run := by
    rw [value]
    cases outcome with
    | error _ => cases run
    | ok result =>
        cases run
        exact (made result.1 result.2 rfl).2

theorem exists_spec (source : Source) : ∃ outcome told, source.Spec outcome told := by
  -- Only integers and fractions are rounded; whatever else makes a float is silent.
  induction source with
  | parts format negative exponent significand =>
      exact ⟨_, _, spec_of_silent (Observed.gives_attempt _) rfl
        fun _ => BinaryFloat.isFinite_of_ofParts⟩
  | goodParts format negative exponent significand =>
      exact ⟨_, _, spec_of_silent (Observed.gives_attempt _).insist rfl
        fun _ made => BinaryFloat.isFinite_of_ofParts (insist_eq_ok_iff.1 made)⟩
  | one format negative =>
      refine ⟨_, _, spec_of_silent (Observed.gives_attempt _) rfl fun f made => ?_⟩
      obtain ⟨_, -, same⟩ := bind_eq_ok_iff.1 made
      cases same
      rfl
  | zero | infinity | nan =>
      refine ⟨_, _, spec_of_silent (Observed.gives_attempt (.ok _)) rfl fun f made => ?_⟩
      cases made
      rfl
  | unsigned format value =>
      refine ⟨_, _, spec_of_rounding ((Observed.ofMagnitude_gives _ _ _).map Prod.fst) ?_ rfl⟩
      intro f direction made
      have normal := BinaryFloat.normal_of_ofMagnitude made
      rwa [Magnitude.isZero_ofWord] at normal
  | signed format value =>
      refine ⟨_, _, spec_of_rounding ((Observed.ofMagnitude_gives _ _ _).map Prod.fst) ?_ rfl⟩
      intro f direction made
      have normal := BinaryFloat.normal_of_ofMagnitude made
      rwa [Magnitude.isZero_ofAbs] at normal
  | fraction format q =>
      refine ⟨_, _, spec_of_rounding ((Observed.insist_ofFraction_gives _ _ _).map Prod.fst) ?_ rfl⟩
      exact fun f direction made => BinaryFloat.normal_of_ofFraction (insist_eq_ok_iff.1 made)
  | neg source ih =>
      obtain ⟨outcome, told, gives, levels, finite⟩ := ih
      refine ⟨outcome.map BinaryFloat.neg, told, gives.map BinaryFloat.neg, ?_, ?_⟩
      · rw [isOk_map]
        exact levels
      · intro f made
        cases outcome with
        | error _ => cases made
        | ok g =>
            cases made
            exact finite g rfl

end Source

namespace Session

/-! ## Steps -/

section

variable (s : Session)

def meetsNoValue : Outcome Step → Bool
  | .ok .toFraction => s.float.isNaN || s.float.isInfinite
  | _ => false

/-- Whether the flag is up after a step wherever it was before. -/
def raises : Outcome Step → Bool
  | .ok .raise => true
  | step => s.meetsNoValue step

def roundsNonzero : Outcome Step → Bool
  | .ok (.setFloat source) => source.roundsNonzero
  | .ok (.round ..) => !s.fraction.isZero
  | _ => false

end

def lowers : Outcome Step → Bool
  | .ok .clear => true
  | .ok .renew => true
  | _ => false

def concernsFloat : Outcome Step → Bool
  | .ok (.setFloat _) => true
  | .ok (.round ..) => true
  | .ok .compare => true
  | _ => false

/-- Whether a step neither puts the flag up by itself nor brings in a float without a value. -/
def isCalm : Outcome Step → Bool
  | .ok .raise => false
  | .ok (.setFloat source) => !source.lacksValue
  | _ => true

/-- What a step does to the flag and what observers see of it. A failed step does nothing, and one
that makes or compares a float does nothing to the context. -/
structure Lawful (s : Session) (step : Outcome Step) (entry : Entry) : Prop where
  flag : entry.after.context.rangeError =
    (s.raises step || (s.context.rangeError && !lowers step))
  events : entry.events.map Event.level =
    (if s.meetsNoValue step then ["DEBUG"] else []) ++
      if entry.reply.isOk && s.roundsNonzero step then ["TRACE"] else []
  failed : entry.reply.isOk = false → entry.after = s ∧ entry.events = []
  apart : concernsFloat step = true → entry.after.context = s.context
  finite : s.float.isFinite = true → isCalm step = true → entry.after.float.isFinite = true

variable {s : Session} {step : Outcome Step} {entry : Entry}

theorem lawful_of_kept (raises : s.raises step = false) (lowers : lowers step = false)
    (context : entry.after.context = s.context)
    (events : entry.events.map Event.level =
      if entry.reply.isOk && s.roundsNonzero step then ["TRACE"] else [])
    (failed : entry.reply.isOk = false → entry.after = s ∧ entry.events = [])
    (finite : s.float.isFinite = true → isCalm step = true → entry.after.float.isFinite = true) :
    Lawful s step entry where
  flag := by rw [raises, lowers, context, Bool.not_false, Bool.and_true, Bool.false_or]
  events := by
    have asks : s.meetsNoValue step = false := by
      unfold Session.raises at raises
      split at raises
      · cases raises
      · exact raises
    rw [asks, events]
    rfl
  failed := failed
  apart _ := context
  finite := finite

theorem advance_eq {step : Step} {reply : Outcome Reply} {events : List Event} {after : Session}
    (run : (perform step).runFrom (s, []) = (reply, after, events)) :
    s.advance (.ok step) = ⟨reply, events, after⟩ := by
  unfold advance
  rw [runFrom_bind, runFrom_attempt]
  simp only [run]

/-! ### Steps that write what a call gives -/

section

variable {α : Type} {step : Step} {outcome : Outcome α} (call : Observed Session α)
  (change : α → Session → Session) (reply : α → Reply)

/-- A step that writes the result of a call, which has told of nothing if it failed. -/
theorem lawful_of_call {told : List Event}
    (same : (perform step).runFrom (s, []) =
      (do
        let a ← call
        Observed.update (change a)
        return reply a : Observed Session Reply).runFrom (s, []))
    (gives : call.runFrom (s, []) = (outcome, s, told))
    (levels : told.map Event.level =
      if outcome.isOk && s.roundsNonzero (.ok step) then ["TRACE"] else [])
    (raises : s.raises (.ok step) = false) (lowers : lowers (.ok step) = false)
    (context : ∀ a, (change a s).context = s.context)
    (finite : ∀ a, outcome = .ok a → s.float.isFinite = true → isCalm (.ok step) = true →
      (change a s).float.isFinite = true) :
    Lawful s (.ok step) (s.advance (.ok step)) := by
  rw [runFrom_bind, gives] at same
  cases outcome with
  | error failure =>
      obtain rfl := List.map_eq_nil_iff.1 levels
      rw [advance_eq same]
      exact lawful_of_kept raises lowers rfl rfl (fun _ => ⟨rfl, rfl⟩) fun finite _ => finite
  | ok a =>
      rw [advance_eq same]
      exact lawful_of_kept raises lowers (context a) levels nofun (finite a rfl)

theorem lawful_of_silent_call
    (same : (perform step).runFrom (s, []) =
      (do
        let a ← call
        Observed.update (change a)
        return reply a : Observed Session Reply).runFrom (s, []))
    (gives : call.runFrom (s, []) = (outcome, s, []))
    (silent : s.roundsNonzero (.ok step) = false) (raises : s.raises (.ok step) = false)
    (lowers : lowers (.ok step) = false) (context : ∀ a, (change a s).context = s.context)
    (finite : ∀ a, s.float.isFinite = true → (change a s).float.isFinite = true) :
    Lawful s (.ok step) (s.advance (.ok step)) := by
  refine lawful_of_call call change reply same gives ?_ raises lowers context ?_
  · rw [silent, Bool.and_false]
    rfl
  · exact fun a _ float _ => finite a float

theorem lawful_of_fraction (result : Outcome Fraction)
    (same : (perform step).runFrom (s, []) =
      (do
        let q ← attempt result
        Observed.update fun s => { s with fraction := q }
        return .silent : Observed Session Reply).runFrom (s, []))
    (silent : s.roundsNonzero (.ok step) = false) (raises : s.raises (.ok step) = false)
    (lowers : lowers (.ok step) = false) : Lawful s (.ok step) (s.advance (.ok step)) :=
  lawful_of_silent_call (attempt result) (fun q s => { s with fraction := q }) (fun _ => .silent)
    same rfl silent raises lowers (fun _ => rfl) fun _ => id

end

theorem lawful_negFloat (s : Session) :
    Lawful s (.ok .negFloat) (s.advance (.ok .negFloat)) :=
  lawful_of_silent_call (attempt (.ok ())) (fun _ s => { s with float := s.float.neg })
    (fun _ => .silent) rfl rfl rfl rfl rfl (fun _ => rfl) fun _ => id

theorem lawful_compare (s : Session) : Lawful s (.ok .compare) (s.advance (.ok .compare)) :=
  lawful_of_silent_call (attempt (s.float.compareFraction s.fraction)) (fun _ s => s) .order
    rfl rfl rfl rfl rfl (fun _ => rfl) fun _ => id

theorem lawful_setFloat (s : Session) (source : Source) :
    Lawful s (.ok (.setFloat source)) (s.advance (.ok (.setFloat source))) := by
  obtain ⟨outcome, told, gives, levels, finite⟩ := source.exists_spec
  exact lawful_of_call source.float (fun f s => { s with float := f }) (fun _ => .silent)
    rfl (gives s []) levels rfl rfl (fun _ => rfl) fun f made _ calm => (finite f made).trans calm

theorem lawful_of_conversion {format : Format} {mode : Mode} {insisting : Bool}
    {conversion : Observed Session (BinaryFloat × Ordering)}
    {outcome : Outcome (BinaryFloat × Ordering)}
    (gives : conversion.Gives outcome (Event.ofRounding outcome))
    (made : ∀ f direction, outcome = .ok (f, direction) →
      BinaryFloat.ofFraction format mode s.fraction = .ok (f, direction))
    (same : (perform (.round format mode insisting)).runFrom (s, []) =
      (do
        let (f, direction) ← conversion
        Observed.update fun s => { s with float := f }
        return .direction direction : Observed Session Reply).runFrom (s, [])) :
    Lawful s (.ok (.round format mode insisting))
      (s.advance (.ok (.round format mode insisting))) := by
  have spec (f : BinaryFloat) (direction : Ordering) (run : outcome = .ok (f, direction)) :=
    BinaryFloat.normal_of_ofFraction (made f direction run)
  have levels := Event.level_ofRounding fun f direction run => (spec f direction run).1
  exact lawful_of_call conversion (fun result s => { s with float := result.1 })
    (fun result => .direction result.2) same (gives s []) levels rfl rfl (fun _ => rfl)
    fun result run _ _ => (spec result.1 result.2 run).2

theorem lawful_round (s : Session) (format : Format) (mode : Mode) (insisting : Bool) :
    Lawful s (.ok (.round format mode insisting))
      (s.advance (.ok (.round format mode insisting))) := by
  cases insisting with
  | false => exact lawful_of_conversion (Observed.ofFraction_gives _ _ _) (fun _ _ => id) rfl
  | true =>
      exact lawful_of_conversion (Observed.insist_ofFraction_gives _ _ _)
        (fun _ _ => insist_eq_ok_iff.1) rfl

/-! ### All steps -/

theorem lawful_toFraction (s : Session) :
    Lawful s (.ok .toFraction) (s.advance (.ok .toFraction)) := by
  obtain ⟨q, told, converted, levels⟩ := Observed.exists_runFrom_toFraction s.float s.context []
  have onSession : (onContext (Observed.toFraction s.float)).runFrom (s, []) =
      (.ok q, ⟨⟨s.context.rangeError || (s.float.isNaN || s.float.isInfinite)⟩, s.fraction,
        s.float⟩, told) := by
    rw [runFrom_onContext, converted, List.nil_append]
  have run : (perform .toFraction).runFrom (s, []) =
      (.ok .silent, ⟨⟨s.context.rangeError || (s.float.isNaN || s.float.isInfinite)⟩, q, s.float⟩,
        told) := by
    simp only [perform, runFrom_bind, Observed.runFrom_read, onSession]
    rfl
  rw [advance_eq run]
  constructor
  · show (_ || _) = (_ || (_ && true))
    rw [Bool.and_true, Bool.or_comm]
    rfl
  · rw [levels]
    exact (List.append_nil _).symm
  · nofun
  · nofun
  · exact fun finite _ => finite

theorem lawful_advance (s : Session) (step : Outcome Step) : Lawful s step (s.advance step) := by
  cases step with
  | error failure =>
      exact lawful_of_kept rfl rfl rfl rfl (fun _ => ⟨rfl, rfl⟩) fun finite _ => finite
  | ok step =>
      cases step with
      | setFraction q => exact lawful_of_fraction (.ok q) rfl rfl rfl rfl
      | setFloat source => exact lawful_setFloat s source
      | negFraction => exact lawful_of_fraction (.ok s.fraction.neg) rfl rfl rfl rfl
      | negFloat => exact lawful_negFloat s
      | reduce => exact lawful_of_fraction s.fraction.canonical rfl rfl rfl rfl
      | toFraction => exact lawful_toFraction s
      | round format mode insisting => exact lawful_round s format mode insisting
      | compare => exact lawful_compare s
      | raise => exact ⟨rfl, rfl, nofun, nofun, fun _ calm => nomatch calm⟩
      | clear | renew =>
          exact ⟨(Bool.and_false _).symm, rfl, nofun, nofun, fun finite _ => finite⟩

/-! ## Runs -/

def final (s : Session) (steps : List (Outcome Step)) : Session :=
  (s.run steps).getLast?.elim s Entry.after

@[simp] theorem final_nil (s : Session) : s.final [] = s := rfl

@[simp] theorem final_cons (s : Session) (step : Outcome Step) (rest : List (Outcome Step)) :
    s.final (step :: rest) = (s.advance step).after.final rest := by
  show Option.elim (s.advance step :: run _ rest).getLast? s Entry.after = _
  rw [List.getLast?_cons, final]
  cases (run (s.advance step).after rest).getLast? <;> rfl

theorem getElem?_run (s : Session) (before : List (Outcome Step)) (step : Outcome Step)
    (later : List (Outcome Step)) :
    (s.run (before ++ step :: later))[before.length]? = some ((s.final before).advance step) := by
  induction before generalizing s with
  | nil => rfl
  | cons first before ih =>
      rw [final_cons, ← ih]
      rfl

theorem exists_split_cons {α : Type} {p : List α → α → List α → Prop} {first : α}
    {rest : List α} :
    (∃ before step later, first :: rest = before ++ step :: later ∧ p before step later) ↔
      p [] first rest ∨
        ∃ before step later, rest = before ++ step :: later ∧ p (first :: before) step later := by
  constructor
  · rintro ⟨before, step, later, split, holds⟩
    cases before with
    | nil =>
        cases split
        exact .inl holds
    | cons _ before =>
        cases split
        exact .inr ⟨before, step, later, rfl, holds⟩
  · rintro (holds | ⟨before, step, later, rfl, holds⟩)
    · exact ⟨[], first, rest, rfl, holds⟩
    · exact ⟨first :: before, step, later, rfl, holds⟩

/-- The flag is up at the end if it was up before and never taken down, or if some step put it up
and no later one took it down. -/
theorem rangeError_final (s : Session) (steps : List (Outcome Step)) :
    (s.final steps).context.rangeError = true ↔
      (s.context.rangeError = true ∧ ∀ step ∈ steps, lowers step = false) ∨
        ∃ before step later, steps = before ++ step :: later ∧
          (s.final before).raises step = true ∧ ∀ step ∈ later, lowers step = false := by
  induction steps generalizing s with
  | nil => simp
  | cons first rest ih =>
      rw [final_cons, ih, (lawful_advance s first).flag, exists_split_cons, List.forall_mem_cons,
        Bool.or_eq_true, Bool.and_eq_true, Bool.not_eq_true']
      simp only [final_nil, final_cons]
      -- The first step puts the flag up, or leaves it up, or some later step puts it up.
      tauto

theorem meetsNoValue_of_finite {s : Session} (finite : s.float.isFinite = true)
    (step : Outcome Step) : s.meetsNoValue step = false := by
  unfold meetsNoValue
  split
  · rwa [BinaryFloat.isFinite_eq, Bool.not_eq_true'] at finite
  · rfl

theorem raises_of_calm {s : Session} {step : Outcome Step} (finite : s.float.isFinite = true)
    (calm : isCalm step = true) : s.raises step = false := by
  unfold raises
  split
  · cases calm
  · exact meetsNoValue_of_finite finite step

theorem calm_run {s : Session} {steps : List (Outcome Step)} (finite : s.float.isFinite = true)
    (down : s.context.rangeError = false) (calm : ∀ step ∈ steps, isCalm step = true) :
    (s.final steps).float.isFinite = true ∧ (s.final steps).context.rangeError = false ∧
      ∀ entry ∈ s.run steps, "DEBUG" ∉ entry.events.map Event.level := by
  induction steps generalizing s with
  | nil => exact ⟨finite, down, fun _ member => absurd member List.not_mem_nil⟩
  | cons first rest ih =>
      rw [List.forall_mem_cons] at calm
      have law := lawful_advance s first
      have quiet := raises_of_calm finite calm.1
      have down' : (s.advance first).after.context.rangeError = false := by
        rw [law.flag, quiet, down]
        rfl
      obtain ⟨final, flag, told⟩ := ih (law.finite finite calm.1) down' calm.2
      rw [final_cons]
      refine ⟨final, flag, List.forall_mem_cons.2 ⟨?_, told⟩⟩
      rw [law.events, meetsNoValue_of_finite finite, if_neg Bool.false_ne_true, List.nil_append]
      split <;> decide

/-- The flag at the end of a run and all that is observed on the way are fixed by the steps alone:
which of them failed, which asked for the fraction of a float without a value and which put the flag
up or took it down. No rounding leads to such a float. -/
theorem run_flag (s : Session) (steps : List (Outcome Step)) :
    ((s.final steps).context.rangeError = true ↔
      (s.context.rangeError = true ∧ ∀ step ∈ steps, lowers step = false) ∨
        ∃ before step later, steps = before ++ step :: later ∧
          (s.final before).raises step = true ∧ ∀ step ∈ later, lowers step = false) ∧
    (∀ before step later, steps = before ++ step :: later →
      ∃ entry, (s.run steps)[before.length]? = some entry ∧
        Lawful (s.final before) step entry) ∧
    (∀ format mode q f direction,
      BinaryFloat.ofFraction format mode q = .ok (f, direction) →
        f.isNaN = false ∧ f.isInfinite = false) ∧
    (s.float.isFinite = true → s.context.rangeError = false →
      (∀ step ∈ steps, isCalm step = true) →
        (s.final steps).float.isFinite = true ∧ (s.final steps).context.rangeError = false ∧
          ∀ entry ∈ s.run steps, "DEBUG" ∉ entry.events.map Event.level) := by
  refine ⟨rangeError_final s steps, ?_, ?_, calm_run⟩
  · rintro before step later rfl
    exact ⟨_, getElem?_run s before step later, lawful_advance _ step⟩
  · intro format mode q f direction run
    have finite := (BinaryFloat.normal_of_ofFraction run).2
    rwa [BinaryFloat.isFinite_eq, Bool.not_eq_true', Bool.or_eq_false_iff] at finite

/-- A third is rounded and read back in a session that keeps the flag down. Then the float becomes
an infinity, and the flag that goes up for it stays up while the third is rounded again. -/
theorem run_flag_of_infinity :
    let s : Session := ⟨⟨false⟩, ⟨false, .ofWord 1, .ofWord 3⟩, .zero ⟨3, 2, .nearestEven⟩ false⟩
    let quiet : List (Outcome Step) :=
      [.ok (.round ⟨3, 2, .nearestEven⟩ .upward true), .ok .negFloat, .ok .toFraction]
    let loud : List (Outcome Step) :=
      [.ok (.setFloat (.infinity ⟨3, 2, .nearestEven⟩ true)), .ok .toFraction,
        .ok (.round ⟨3, 2, .nearestEven⟩ .upward true)]
    s.float.isFinite = true ∧ (∀ step ∈ quiet, isCalm step = true) ∧
      (s.final quiet).context.rangeError = false ∧ (s.final loud).context.rangeError = true := by
  intro s quiet loud
  have finite : s.float.isFinite = true := rfl
  have calm : ∀ step ∈ quiet, isCalm step = true := by decide
  refine ⟨finite, calm, ((run_flag s quiet).2.2.2 finite rfl calm).2.1, ?_⟩
  refine (run_flag s loud).1.2 (.inr ⟨[_], _, [_], rfl, rfl, ?_⟩)
  decide

end Session

end ExactFloat
