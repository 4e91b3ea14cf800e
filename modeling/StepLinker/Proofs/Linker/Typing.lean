import StepLinker.Proofs.Statement.Gap
import StepLinker.Proofs.Tree.Exact

/-!
# Types of arguments

An argument of an exact match takes up tokens of the statement: its content and, if the placeholder
is quoted, a mark on either side (`ArgumentMatch.Holds`). What type it has (`Typing`) and which type
error it gives (`TypeReport`) is said here of these tokens and of the blanks in the text between
them. `argument_typed` shows that the linker finds just that, for whatever a search matches.
-/

namespace StepLinker

open Text

def Cause.isTypeError : Cause → Bool
  | .valueRequired .. => true
  | .typeNotCompatible .. => true
  | _ => false

theorem TokenKind.isDynamic_iff {kind : TokenKind} :
    kind.isDynamic = true ↔ kind = .interpolation ∨ ∃ name, kind = .parameter name := by
  cases kind <;> simp [TokenKind.isDynamic]

theorem ArgumentType.isNumeric_of_strictness_lt {type hint : ArgumentType}
    (h : type.strictness < hint.strictness) : hint.isNumeric = true := by
  cases hint with
  | text => exact absurd h (Nat.not_lt_zero _)
  | decimal => rfl
  | integer => rfl

namespace ArgumentMatch

/-- The argument takes up the content and, if its placeholder is quoted, the marks around it. -/
inductive Holds (s : Statement) (a : ArgumentMatch) :
    Option (Token × Token) → List Token → Prop where
  | quoted {q : QuoteMark} {before content after : List Token} {first last : Token}
      (quote : a.placeholder.quote = some q)
      (tokens : s.tokens.toList = before ++ first :: (content ++ last :: after))
      (span : a.span = .quoted before.length content.length)
      (opens : first.kind = .quote q) (plain : ∀ t ∈ content, t.kind ≠ .quote q)
      (closes : last.kind = .quote q) : Holds s a (some (first, last)) content
  | unquoted {before content after : List Token} (quote : a.placeholder.quote = none)
      (tokens : s.tokens.toList = before ++ (content ++ after))
      (span : a.span = ⟨before.length, before.length + content.length, false, false⟩)
      (nonempty : content ≠ [])
      (number : a.placeholder.hint.any (·.isNumeric) = true → ∃ t, content = [t] ∧
        (t.kind = .integer ∨ t.kind = .decimal ∨ ∃ name, t.kind = .parameter name)) :
      Holds s a none content

/-- No blank stands between the token and the marks around it, if there are any. -/
def Tight (s : Statement) (marks : Option (Token × Token)) (t : Token) : Prop :=
  ∀ first last, marks = some (first, last) →
    (∀ c ∈ s.between first t, isBlank c = false) ∧ ∀ c ∈ s.between t last, isBlank c = false

/-- Which type the content has: what is not known before the step runs has none, a number that
stands tightly has its own, and all else is text. -/
structure Typing (s : Statement) (marks : Option (Token × Token)) (content : List Token)
    (type? : Option ArgumentType) : Prop where
  unknown : type? = none ↔
    ∃ t ∈ content, t.kind = .interpolation ∨ ∃ name, t.kind = .parameter name
  integer : type? = some .integer ↔ ∃ t, content = [t] ∧ t.kind = .integer ∧ Tight s marks t
  decimal : type? = some .decimal ↔ ∃ t, content = [t] ∧ t.kind = .decimal ∧ Tight s marks t
  text : type? = some .text ↔
    (¬ ∃ t ∈ content, t.kind = .interpolation ∨ ∃ name, t.kind = .parameter name) ∧
      ¬ ∃ t, content = [t] ∧ (t.kind = .integer ∨ t.kind = .decimal) ∧ Tight s marks t

/-- Which type error an argument of the type with the content gives. -/
inductive TypeReport (step : Step) (a : ArgumentMatch) (content : List Token)
    (type? : Option ArgumentType) : List (Cause × Text.Range) → Prop where
  | valueRequired {hint : ArgumentType} (wanted : a.placeholder.hint = some hint)
      (numeric : hint.isNumeric = true) (empty : content = []) :
      TypeReport step a content type? [(.valueRequired hint a.placeholder.name,
        step.tokenRange a.span.start a.span.stop)]
  | notCompatible {hint type : ArgumentType} (wanted : a.placeholder.hint = some hint)
      (numeric : hint.isNumeric = true) (nonempty : content ≠ []) (known : type? = some type)
      (below : type.strictness < hint.strictness) :
      TypeReport step a content type? [(.typeNotCompatible (a.raw step.statement) hint
        a.placeholder.name, step.tokenRange a.span.content.1 a.span.content.2)]
  | fine (noneMissing : ¬ (a.placeholder.hint.any (·.isNumeric) = true ∧ content = []))
      (noneBelow : ¬ ∃ hint type, a.placeholder.hint = some hint ∧ hint.isNumeric = true ∧
        content ≠ [] ∧ type? = some type ∧ type.strictness < hint.strictness) :
      TypeReport step a content type? []

def typeErrors (a : ArgumentMatch) (step : Step) (warn : Bool) : List (Cause × Text.Range) :=
  (a.findings step warn).filter (·.1.isTypeError)

/-- The type of the argument and its type errors are those of the content. -/
structure Typed (step : Step) (a : ArgumentMatch) (marks : Option (Token × Token))
    (content : List Token) : Prop where
  holds : Holds step.statement a marks content
  typing : Typing step.statement marks content (a.bind step.statement).type
  report : ∀ warn, TypeReport step a content (a.bind step.statement).type (a.typeErrors step warn)
  /-- Any value does for a text. -/
  textWanted : a.placeholder.hint = some .text → ∀ warn, a.typeErrors step warn = []
  /-- A value that is not known yet may be of any type. -/
  unknown : (a.bind step.statement).type = none → ∀ warn, a.typeErrors step warn = []
  /-- Where a number without marks is asked for, a search lets numbers through only. -/
  bareNumber : a.placeholder.quote = none → a.placeholder.hint.any (·.isNumeric) = true →
    ∀ warn, ∀ f ∈ a.typeErrors step warn, f.1.code = .typeNotCompatible ∧
      a.placeholder.hint = some .integer ∧ ∃ t, content = [t] ∧ t.kind = .decimal

section
variable {s : Statement} {a : ArgumentMatch} {marks : Option (Token × Token)}
  {content : List Token}

/-! ## The content -/

theorem Holds.exists_places (h : Holds s a marks content) :
    ∃ before after, s.tokens.toList = before ++ (content ++ after) ∧
      a.span.content = (before.length, before.length + content.length) := by
  cases h with
  | @quoted q before _ after first last quote tokens span opens plain closes =>
    refine ⟨before ++ [first], last :: after, by simp [tokens], ?_⟩
    rw [span, Span.content_quoted, List.length_append, List.length_singleton]
  | @unquoted before _ after quote tokens span nonempty number =>
    refine ⟨before, after, tokens, ?_⟩
    simp [span, Span.content]

theorem Holds.content_eq (h : Holds s a marks content) : a.content s = content := by
  obtain ⟨before, after, htokens, hcontent⟩ := h.exists_places
  exact ArgumentMatch.content_eq htokens hcontent

theorem Holds.isEmpty_iff (h : Holds s a marks content) : a.isEmpty = true ↔ content = [] := by
  obtain ⟨before, after, -, hcontent⟩ := h.exists_places
  rw [ArgumentMatch.isEmpty_iff hcontent, List.length_eq_zero_iff]

/-- A single token is padded if it does not stand tightly between its marks. -/
theorem Holds.isPadded_eq_false_iff {t : Token}
    (h : Holds s a marks [t]) : a.isPadded s = false ↔ Tight s marks t := by
  have hempty : a.isEmpty = false := by
    rw [Bool.eq_false_iff, Ne, h.isEmpty_iff]
    nofun
  cases h with
  | @quoted q before _ after first last quote tokens span opens plain closes =>
    have hget (i : Nat) : s.tokens[before.length + i]? = (first :: t :: last :: after)[i]? :=
      Statement.getElem?_of_tokens tokens i
    have hpadded : a.isPadded s =
        (s.hasGapAfter before.length || s.hasGapAfter (before.length + 1)) := by
      rw [isPadded, hempty, span, Span.content_quoted]
      rfl
    have hopens : s.hasGapAfter before.length = false ↔ _ :=
      Statement.hasGapAfter_eq_false_iff (hget 0) (hget 1)
    have hcloses : s.hasGapAfter (before.length + 1) = false ↔ _ :=
      Statement.hasGapAfter_eq_false_iff (hget 1) (hget 2)
    rw [hpadded, Bool.or_eq_false_iff, hopens, hcloses]
    constructor
    · intro htight _ _ hmarks
      cases hmarks
      exact htight
    · intro htight
      exact htight first last rfl
  | @unquoted before _ after quote tokens span nonempty number =>
    simp [isPadded, span, Tight]

/-! ## The type -/

/-- A token that is all of a value has the type of its kind. -/
theorem typing_single {t : Token} (htight : Tight s marks t) : Typing s marks [t] t.kind.type? := by
  rcases hkind : t.kind with _ | mark | c | _ | _ | name | _ | _ <;>
    refine ⟨?_, ?_, ?_, ?_⟩ <;> simp [TokenKind.type?, hkind, htight]

theorem typing_other (hother : ∀ t, content = [t] → ¬ Tight s marks t) :
    Typing s marks content (if content.any (·.kind.isDynamic) then none else some .text) := by
  have hnumber (p : TokenKind → Prop) :
      ¬ ∃ t, content = [t] ∧ p t.kind ∧ Tight s marks t := by
    rintro ⟨t, hcontent, -, htight⟩
    exact hother t hcontent htight
  refine ⟨?_, ?_, ?_, ?_⟩
  · simp only [← TokenKind.isDynamic_iff]
    simp
  · rw [iff_false_right (hnumber (· = .integer))]
    split <;> nofun
  · rw [iff_false_right (hnumber (· = .decimal))]
    split <;> nofun
  · rw [and_iff_left (hnumber fun kind => kind = .integer ∨ kind = .decimal)]
    simp only [← TokenKind.isDynamic_iff]
    simp

theorem Holds.typing (h : Holds s a marks content) :
    Typing s marks content (a.type? s) := by
  have hempty := h.isEmpty_iff
  rw [type?, h.content_eq]
  -- only a single token can be a number
  rcases content with _ | ⟨t, _ | ⟨t', ts⟩⟩
  · rw [if_pos (hempty.2 rfl)]
    refine typing_other fun t' ht' => ?_
    cases ht'
  · rw [if_neg (mt hempty.1 (List.cons_ne_nil _ _))]
    rcases hpadded : a.isPadded s with _ | _
    · exact typing_single ((h.isPadded_eq_false_iff).1 hpadded)
    · refine typing_other fun t' ht' htight => ?_
      cases ht'
      rw [(h.isPadded_eq_false_iff).2 htight] at hpadded
      cases hpadded
  · rw [if_neg (mt hempty.1 (List.cons_ne_nil _ _))]
    refine typing_other fun t' ht' => ?_
    cases ht'

/-! ## The type errors -/

theorem Holds.typeReport_typeError? {step : Step} (h : Holds step.statement a marks content) :
    TypeReport step a content (a.type? step.statement) (a.typeError? step).toList := by
  have hempty := h.isEmpty_iff
  unfold typeError?
  rcases hhint : a.placeholder.hint with _ | hint
  · exact .fine (by simp [hhint]) (by simp [hhint])
  by_cases hcontent : content = []
  · simp only [if_pos (hempty.2 hcontent)]
    split
    · next hnumeric => exact .valueRequired hhint hnumeric hcontent
    · next hnumeric => exact .fine (by simp [hhint, hnumeric]) (by simp [hcontent])
  · simp only [if_neg (mt hempty.1 hcontent)]
    rcases htype : a.type? step.statement with _ | type
    · exact .fine (by simp [hcontent]) (by simp)
    · by_cases hbelow : type.strictness < hint.strictness
      · have hsatisfies : type.satisfies hint = false :=
          decide_eq_false (Nat.not_le.2 hbelow)
        simp only [hsatisfies]
        have hnumeric := ArgumentType.isNumeric_of_strictness_lt hbelow
        exact .notCompatible hhint hnumeric hcontent rfl hbelow
      · have hsatisfies : type.satisfies hint = true := decide_eq_true (Nat.not_lt.1 hbelow)
        simp only [hsatisfies]
        exact .fine (by simp [hcontent]) (by simp [hhint, hbelow])

theorem TypeReport.isTypeError {step : Step} {type? : Option ArgumentType}
    {errors : List (Cause × Text.Range)} (h : TypeReport step a content type? errors) :
    ∀ f ∈ errors, f.1.isTypeError = true := by
  cases h with
  | fine => nofun
  | valueRequired | notCompatible =>
    intro f hf
    obtain rfl := List.mem_singleton.1 hf
    rfl

theorem isTypeError_of_padding? {step : Step} {f : Cause × Text.Range}
    (hf : a.padding? step = some f) : f.1.isTypeError = false := by
  rw [padding?, Option.ite_none_right_eq_some] at hf
  cases hf.2
  rfl

/-- The type errors among all that is found about the argument. -/
theorem Holds.typeReport {step : Step} (h : Holds step.statement a marks content) (warn : Bool) :
    TypeReport step a content (a.type? step.statement) (a.typeErrors step warn) := by
  have hreport := h.typeReport_typeError?
  have hpadding :
      (if warn then a.padding? step else none).toList.filter (·.1.isTypeError) = [] := by
    refine List.filter_eq_nil_iff.2 fun f hf => ?_
    rw [Option.mem_toList, Option.ite_none_right_eq_some] at hf
    simp [isTypeError_of_padding? hf.2]
  rw [typeErrors, findings, List.filter_append, hpadding, List.append_nil,
    List.filter_eq_self.2 hreport.isTypeError]
  exact hreport

/-! ## Arguments of an exact match -/

theorem Holds.of_takes {before taken after : List Token}
    (htokens : s.tokens.toList = before ++ (taken ++ after))
    (htakes : (Part.argument a.placeholder).Takes taken)
    (hspan : a.span = ⟨before.length, before.length + taken.length, a.placeholder.quote.isSome,
      a.placeholder.quote.isSome⟩) : ∃ marks content, Holds s a marks content := by
  cases htakes with
  | @quoted _ q first last inside quote opens plain closes =>
    have htokens' : s.tokens.toList = before ++ first :: (inside ++ last :: after) := by
      simpa using htokens
    have hspan' : a.span = .quoted before.length inside.length := by
      rw [hspan, quote, List.length_append, List.length_cons, List.length_singleton,
        Nat.add_assoc, ← Nat.add_assoc before.length]
      rfl
    exact ⟨_, inside, .quoted quote htokens' hspan' opens plain closes⟩
  | number quote numeric kind =>
    rw [quote] at hspan
    exact ⟨none, _, .unquoted quote htokens hspan (List.cons_ne_nil _ _) fun _ => ⟨_, rfl, kind⟩⟩
  | free quote notNumeric nonempty =>
    rw [quote] at hspan
    refine ⟨none, taken, .unquoted quote htokens hspan nonempty fun numeric => ?_⟩
    rw [notNumeric] at numeric
    cases numeric

/-- An argument of a reading takes up the tokens that its part takes. -/
theorem exists_holds_of_isReading {parts : List Part} {pieces : List (List Token)}
    (h : IsReading parts s.tokens.toList pieces) (ha : a ∈ argumentsFrom 0 parts pieces) :
    ∃ marks content, Holds s a marks content := by
  obtain ⟨before, taken, after, hflatten, htaken, hspan⟩ :=
    exists_split_of_mem_argumentsFrom h.1 ha
  rw [Nat.zero_add] at hspan
  exact Holds.of_takes (h.2.symm.trans hflatten) htaken hspan

theorem TypeReport.eq_nil_of_text {step : Step} {type? : Option ArgumentType}
    {errors : List (Cause × Text.Range)} (h : TypeReport step a content type? errors)
    (hhint : a.placeholder.hint = some .text) : errors = [] := by
  cases h with
  | fine => rfl
  | valueRequired wanted numeric | notCompatible wanted numeric =>
    rw [hhint] at wanted
    cases wanted
    cases numeric

theorem TypeReport.eq_nil_of_unknown {step : Step} {errors : List (Cause × Text.Range)}
    (h : TypeReport step a content none errors) (hcontent : content ≠ []) : errors = [] := by
  cases h with
  | fine => rfl
  | valueRequired _ _ empty => exact absurd empty hcontent
  | notCompatible _ _ _ known => cases known

/-- A number without marks can only be a decimal where an integer is asked for. -/
theorem TypeReport.of_bareNumber {step : Step} {type? : Option ArgumentType}
    {errors : List (Cause × Text.Range)} (h : TypeReport step a content type? errors)
    (hholds : Holds s a marks content) (htyping : Typing s marks content type?)
    (hquote : a.placeholder.quote = none) (hnumeric : a.placeholder.hint.any (·.isNumeric) = true) :
    ∀ f ∈ errors, f.1.code = .typeNotCompatible ∧ a.placeholder.hint = some .integer ∧
      ∃ t, content = [t] ∧ t.kind = .decimal := by
  cases hholds with
  | quoted quote =>
    rw [hquote] at quote
    cases quote
  | unquoted _ _ _ nonempty number =>
    obtain ⟨t, hcontent, hkind⟩ := number hnumeric
    cases h with
    | fine => nofun
    | valueRequired _ _ empty => exact absurd empty nonempty
    | @notCompatible hint type wanted _ _ known below =>
      intro f hf
      obtain rfl := List.mem_singleton.1 hf
      -- what is left of the numbers that a search takes: integers do, parameters have no type
      have htight : Tight s none t := nofun
      rcases hkind with hkind | hkind | ⟨name, hkind⟩
      · have hinteger := htyping.integer.2 ⟨t, hcontent, hkind, htight⟩
        rw [known] at hinteger
        cases hinteger
        cases hint <;> exact absurd below (by decide)
      · have hdecimal := htyping.decimal.2 ⟨t, hcontent, hkind, htight⟩
        rw [known] at hdecimal
        cases hdecimal
        refine ⟨rfl, ?_, t, hcontent, hkind⟩
        rw [wanted]
        cases hint with
        | integer => rfl
        | text | decimal => exact absurd below (by decide)
      · have hunknown := htyping.unknown.2 ⟨t, by simp [hcontent], .inr ⟨name, hkind⟩⟩
        rw [known] at hunknown
        cases hunknown

theorem Holds.typed {step : Step} 
    (h : Holds step.statement a marks content) : Typed step a marks content := by
  have htyping := h.typing
  refine ⟨h, htyping, h.typeReport, fun hhint warn => (h.typeReport warn).eq_nil_of_text hhint,
    fun htype warn => ?_, fun hquote hnumeric warn => ?_⟩
  · obtain ⟨t, ht, -⟩ := htyping.unknown.1 htype
    have hreport := h.typeReport warn
    rw [show a.type? step.statement = none from htype] at hreport
    exact hreport.eq_nil_of_unknown (List.ne_nil_of_mem ht)
  · exact (h.typeReport warn).of_bareNumber h htyping hquote hnumeric

end

end ArgumentMatch

namespace MatchingTree

theorem WellFormed.exists_holds {t : MatchingTree} (ht : t.WellFormed) {s : Statement}
    {type : StepType} {allowPartial : Bool} {m : Match}
    (hm : m ∈ t.exactMatches type s allowPartial) {a : ArgumentMatch} (ha : a ∈ m.arguments) :
    ∃ marks content, a.Holds s marks content := by
  obtain ⟨p, pieces, -, hreading, harguments⟩ := ht.exists_reading_of_mem_exactMatches hm
  exact ArgumentMatch.exists_holds_of_isReading hreading (harguments ▸ ha)

/-- Every argument of an exact match has the type of its content and gives the type errors that the
type and the hint call for. -/
theorem Reachable.arguments_typed {t : MatchingTree} (ht : t.Reachable) {step : Step}
    {type : StepType} {allowPartial : Bool}
    {m : Match} (hm : m ∈ t.search type step.statement allowPartial) (hexact : m.exact = true)
    {a : ArgumentMatch} (ha : a ∈ m.arguments) :
    ∃ marks content, a.Typed step marks content := by
  have hmatch : m ∈ t.exactMatches type step.statement allowPartial :=
    List.mem_filter.2 ⟨hm, hexact⟩
  obtain ⟨marks, content, hholds⟩ := ht.wellFormed.exists_holds hmatch ha
  exact ⟨marks, content, hholds.typed⟩

/-- An integer with a blank before the closing mark is a text, which does not do. -/
theorem arguments_typed_pay :
    let pay : Definition := ⟨"shop", .phase .action, "I pay '{sum:int}' to {who}", .optional,
      .native "pay" none, none⟩
    let t := empty.run (.addOrUpdate pay)
    let step : Step := .ofText (.phase .action) (.phase .action) "I pay '12 ' to <name>" ⟨1, 1⟩ none
    let sum : ArgumentMatch := ⟨⟨"sum", some .integer, some .single⟩, ⟨2, 5, true, true⟩⟩
    t.Reachable ∧
      (∃ m ∈ t.search (.phase .action) step.statement false, m.exact = true ∧ sum ∈ m.arguments) ∧
      (∃ marks content, sum.Typed step marks content) ∧
      (sum.bind step.statement).type = some .text ∧
      (sum.typeErrors step true).map (·.1.code) = [.typeNotCompatible] := by
  intro pay t step sum
  have ht : t.Reachable := .step _ .empty rfl
  have hsearch : (t.search (.phase .action) step.statement false).any
      (fun m => m.exact && m.arguments.contains sum) = true := by
    decide +kernel
  obtain ⟨m, hm, hfound⟩ := List.any_eq_true.1 hsearch
  obtain ⟨hexact, hsum⟩ := Bool.and_eq_true_iff.1 hfound
  have hsum : sum ∈ m.arguments := List.contains_iff_mem.1 hsum
  exact ⟨ht, ⟨m, hm, hexact, hsum⟩, ht.arguments_typed hm hexact hsum,
    by decide +kernel, by decide +kernel⟩

end MatchingTree

end StepLinker
