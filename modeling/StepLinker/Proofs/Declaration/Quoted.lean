import StepLinker.Declaration.Pattern
import StepLinker.Proofs.Declaration.Segmented
import StepLinker.Proofs.Statement.Cut

/-!
# A placeholder between quote marks

Text without braces and backslashes is literal, a placeholder is read back from its source, and two
equal quote marks around it become part of the argument. So a declaration of that shape is accepted,
and compiles to the words of the text before the marks, one quoted argument and the words of the
text behind them (`ofDeclaration_quoted`).
-/

namespace StepLinker

open Text

/-! ## Reading items -/

/-- The text has nothing in it that means something in a declaration. -/
def IsPlain (text : List Char) : Prop :=
  ∀ c ∈ text, c ≠ '\\' ∧ c ≠ '{' ∧ c ≠ '}'

instance (text : List Char) : Decidable (IsPlain text) :=
  List.decidableBAll _ text

theorem isPlain_append {text more : List Char} :
    IsPlain (text ++ more) ↔ IsPlain text ∧ IsPlain more :=
  List.forall_mem_append

theorem isPlain_quote (q : QuoteMark) : IsPlain [q.toChar] := by
  cases q <;> decide

theorem IsPlain.dangling_not_mem {text : List Char} (h : IsPlain text) (boundary : Bool) :
    Lexeme.dangling ∉ lexemes boundary text :=
  StepLinker.dangling_not_mem boundary fun hlast => (h _ (List.mem_of_getLast? hlast)).1 rfl

def Item.isName (cs : List Char) : Bool :=
  opensPlaceholder cs && cs.all isNameChar

theorem items_cons_of_next {start : Nat} {c : Char} {rest rest' : List Char} {item : Item}
    (h : Item.next start c rest = .ok (item, rest')) :
    items start (c :: rest) = (items (start + byteLength item.source) rest').map (item :: ·) := by
  rw [items]
  split
  · next heq =>
    rw [h] at heq
    cases heq
  · next heq =>
    rw [h] at heq
    cases heq
    cases items (start + byteLength item.source) rest' <;> rfl

theorem items_plain {text : List Char} (h : IsPlain text) (start : Nat) (rest : List Char) :
    items start (text ++ rest) =
      (items (start + byteLength text) rest).map (text.map .plain ++ ·) := by
  induction text generalizing start with
  | nil => cases h : items start rest <;> simp [byteLength, h, Except.map]
  | cons c text ih =>
    obtain ⟨⟨hslash, hopen, hclose⟩, htext⟩ := List.forall_mem_cons.1 h
    have hnext : Item.next start c (text ++ rest) = .ok (.plain c, text ++ rest) := by
      simp [Item.next, hslash, hopen, hclose]
    rw [List.cons_append, items_cons_of_next hnext, ih htext]
    rw [show start + byteLength (Item.plain c).source + byteLength text =
      start + byteLength (c :: text) by simp [byteLength, Item.source, Nat.add_assoc]]
    cases items (start + byteLength (c :: text)) rest <;> rfl

theorem takeWhile_dropWhile_append_cons {α : Type} {p : α → Bool} {as : List α} {b : α}
    (h : ∀ a ∈ as, p a = true) (hb : p b = false) (bs : List α) :
    (as ++ b :: bs).takeWhile p = as ∧ (as ++ b :: bs).dropWhile p = b :: bs := by
  rw [List.takeWhile_append_of_pos h, List.dropWhile_append_of_pos h]
  simp [hb]

theorem Item.next_brace {name : List Char} (hname : isName name = true) (start : Nat)
    (more : List Char) : next start '{' (name ++ more) = readPlaceholder start (name ++ more) := by
  obtain ⟨hopens, -⟩ := Bool.and_eq_true_iff.1 hname
  rcases name with _ | ⟨c, cs⟩
  · cases hopens
  have hopens : isNameStart c = true := hopens
  have hbrace : c ≠ '{' := by
    rintro rfl
    exact absurd hopens (by decide)
  simp [next, opensPlaceholder, hbrace, hopens]

theorem Item.readPlaceholder_source {name : List Char} {hint : Option (List Char)}
    (hname : isName name = true) (hhint : ∀ cs ∈ hint, isHint cs = true ∧ '}' ∉ cs) (start : Nat)
    (rest : List Char) :
    ∃ more, (placeholder name hint).source ++ rest = '{' :: (name ++ more) ∧
      readPlaceholder start (name ++ more) = .ok (placeholder name hint, rest) := by
  have hchars := List.all_eq_true.1 (Bool.and_eq_true_iff.1 hname).2
  cases hint with
  | none =>
    obtain ⟨htake, hdrop⟩ :=
      takeWhile_dropWhile_append_cons hchars (show isNameChar '}' = false by decide) rest
    refine ⟨'}' :: rest, by simp [source], ?_⟩
    simp [readPlaceholder, htake, hdrop]
  | some cs =>
    obtain ⟨hcs, hclose⟩ := hhint cs rfl
    obtain ⟨htake, hdrop⟩ := takeWhile_dropWhile_append_cons hchars
      (show isNameChar ':' = false by decide) (cs ++ '}' :: rest)
    have hinside : ∀ c ∈ cs, (c != '}') = true := fun c hc => by
      simpa using fun heq : c = '}' => hclose (heq ▸ hc)
    obtain ⟨htake', hdrop'⟩ := takeWhile_dropWhile_append_cons hinside
      (show ('}' != '}') = false by decide) rest
    refine ⟨':' :: (cs ++ '}' :: rest), by simp [source], ?_⟩
    simp [readPlaceholder, htake, hdrop, htake', hdrop', hcs]

theorem items_placeholder {name : List Char} {hint : Option (List Char)}
    (hname : Item.isName name = true)
    (hhint : ∀ cs ∈ hint, Item.isHint cs = true ∧ '}' ∉ cs) (start : Nat) (rest : List Char) :
    items start ((Item.placeholder name hint).source ++ rest) =
      (items (start + byteLength (Item.placeholder name hint).source) rest).map
        (Item.placeholder name hint :: ·) := by
  obtain ⟨more, hsource, hread⟩ := Item.readPlaceholder_source hname hhint start rest
  rw [hsource, items_cons_of_next ((Item.next_brace hname start more).trans hread)]

/-! ## Hints -/

theorem ArgumentType.isAlphanum_of_mem_spellings {type : ArgumentType} {spelling : String}
    (h : spelling ∈ type.spellings) :
    spelling.toList ≠ [] ∧ ∀ c ∈ spelling.toList, c.isAlphanum = true := by
  have hall : type.spellings.all (fun s => !s.toList.isEmpty && s.toList.all Char.isAlphanum) =
      true := by
    cases type <;> decide +kernel
  have hspelling := List.all_eq_true.1 hall spelling h
  simpa using hspelling

theorem isAlphanum_of_toLower {c : Char} (h : c.toLower.isAlphanum = true) :
    c.isAlphanum = true := by
  by_cases hupper : c.isUpper = true
  · exact Bool.or_eq_true_iff.2 (.inl (Bool.or_eq_true_iff.2 (.inl hupper)))
  · have hlower : c.toLower = c := dif_neg fun hrange => hupper (decide_eq_true hrange)
    rwa [hlower] at h

theorem isHint_of_isSome_ofHint? {cs : List Char}
    (h : (ArgumentType.ofHint? (String.ofList cs)).isSome = true) :
    Item.isHint cs = true ∧ '}' ∉ cs := by
  obtain ⟨type, htype⟩ := Option.isSome_iff_exists.1 h
  have hmem : (String.ofList cs).toLower ∈ type.spellings := by
    simpa using List.find?_some htype
  obtain ⟨hne, hchars⟩ := ArgumentType.isAlphanum_of_mem_spellings hmem
  have hlower : (String.ofList cs).toLower.toList = cs.map Char.toLower := by
    show (String.map Char.toLower (String.ofList cs)).toList = _
    rw [String.toList_map, String.toList_ofList]
  rw [hlower] at hne hchars
  have hword : ∀ c ∈ cs, Lexeme.isWordChar c = true := fun c hc =>
    (Lexeme.isWordChar_of_isAlphanum
      (isAlphanum_of_toLower (hchars _ (List.mem_map_of_mem hc)))).1
  refine ⟨?_, fun hmem => absurd (hword _ hmem) (by decide)⟩
  rw [Item.isHint, Bool.and_eq_true, List.all_eq_true]
  refine ⟨by simpa using hne, fun c hc => ?_⟩
  have hc := hword c hc
  have hblank : isBlank c = false := by
    simp only [Lexeme.isWordChar, Bool.and_eq_true, Bool.not_eq_true'] at hc
    exact hc.1.1.1
  have hopen : c ≠ '{' := by
    rintro rfl
    exact absurd hc (by decide)
  simp [hblank, hopen]

theorem Segment.hintType_of_isSome {name : String} {hint : Option (List Char)}
    (h : ∀ cs ∈ hint, (ArgumentType.ofHint? (String.ofList cs)).isSome = true) :
    hintType name hint = .ok (Item.hintedType hint) := by
  cases hint with
  | none => rfl
  | some cs =>
    obtain ⟨type, htype⟩ := Option.isSome_iff_exists.1 (h cs rfl)
    simp [hintType, Item.hintedType, htype]

theorem Item.hintedType_eq_text {hint : Option (List Char)}
    (h : ∀ cs ∈ hint, ArgumentType.ofHint? (String.ofList cs) = some .text) :
    ∀ type ∈ hintedType hint, type = .text := by
  intro type hmem
  obtain ⟨cs, hcs, htype⟩ := Option.bind_eq_some_iff.1 hmem
  exact Option.some.inj (htype.symm.trans (h cs hcs))

/-! ## Joining segments -/

theorem Segment.withLiteral_append (text more : List Char) (segs : List Segment) :
    withLiteral text (withLiteral more segs) = withLiteral (text ++ more) segs := by
  rcases segs with _ | ⟨seg, segs⟩
  · rfl
  · cases seg <;> simp [withLiteral]

theorem segments_plain {text : List Char} (hne : text ≠ []) (offset depth : Nat)
    (names : List String) (rest : List Item) :
    segments offset depth names (text.map .plain ++ rest) =
      (segments (offset + byteLength text) depth names rest).map (Segment.withLiteral text) := by
  induction text generalizing offset with
  | nil => exact absurd rfl hne
  | cons c text ih =>
    have hfirst : segments offset depth names (Item.plain c :: (text.map .plain ++ rest)) =
        (segments (offset + c.utf8Size) depth names (text.map .plain ++ rest)).map
          (Segment.withLiteral [c]) := rfl
    rw [List.map_cons, List.cons_append, hfirst, byteLength, ← Nat.add_assoc]
    rcases text with _ | ⟨c', text⟩
    · rfl
    · rw [ih (List.cons_ne_nil _ _)]
      cases segments (offset + c.utf8Size + byteLength (c' :: text)) depth names rest with
      | error e => rfl
      | ok segs => exact congrArg Except.ok (Segment.withLiteral_append [c] (c' :: text) segs)

theorem segments_placeholder {name : List Char} {hint : Option (List Char)}
    (hhint : ∀ cs ∈ hint, (ArgumentType.ofHint? (String.ofList cs)).isSome = true)
    {names : List String} (hnew : String.ofList name ∉ names) (offset depth : Nat)
    (rest : List Item) :
    segments offset depth names (.placeholder name hint :: rest) =
      (segments (offset + byteLength (Item.placeholder name hint).source) depth
        (String.ofList name :: names) rest).map
        (.placeholder (String.ofList name) (Item.hintedType hint) :: ·) := by
  simp only [segments, Segment.hintType_of_isSome hhint, if_neg hnew]
  rfl

/-! ## The pattern -/

section
variable {text more name : List Char} {hint : Option (List Char)}

theorem items_quoted (htext : IsPlain text) (hmore : IsPlain more)
    (hname : Item.isName name = true)
    (hhint : ∀ cs ∈ hint, (ArgumentType.ofHint? (String.ofList cs)).isSome = true)
    (q : QuoteMark) :
    items 0 (q.enclose text (Item.placeholder name hint).source more) =
      .ok ((text ++ [q.toChar]).map .plain ++ .placeholder name hint ::
        ((q.toChar :: more).map .plain ++ [])) := by
  have hleft : IsPlain (text ++ [q.toChar]) := isPlain_append.2 ⟨htext, isPlain_quote q⟩
  have hright : IsPlain ([q.toChar] ++ more) := isPlain_append.2 ⟨isPlain_quote q, hmore⟩
  have hend (start : Nat) : items start (q.toChar :: more) =
      .ok ((q.toChar :: more).map .plain ++ []) := by
    have hitems := items_plain hright start []
    rw [List.append_nil, items] at hitems
    exact hitems
  have htexts : q.enclose text (Item.placeholder name hint).source more =
      (text ++ [q.toChar]) ++ ((Item.placeholder name hint).source ++ q.toChar :: more) := by
    simp [QuoteMark.enclose]
  rw [htexts, items_plain hleft,
    items_placeholder hname fun cs hcs => isHint_of_isSome_ofHint? (hhint cs hcs), hend]
  rfl

theorem segments_quoted
    (hhint : ∀ cs ∈ hint, (ArgumentType.ofHint? (String.ofList cs)).isSome = true)
    (q : QuoteMark) :
    segments 0 0 [] ((text ++ [q.toChar]).map .plain ++ .placeholder name hint ::
      ((q.toChar :: more).map .plain ++ [])) =
      .ok [.literal (text ++ [q.toChar]),
        .placeholder (String.ofList name) (Item.hintedType hint), .literal (q.toChar :: more)] := by
  rw [segments_plain (by simp), segments_placeholder hhint (by simp), segments_plain (by simp)]
  rfl

namespace Pattern

/-- The mark at the end of the text before a placeholder and the mark at the front of the text
behind it become part of the argument. -/
theorem assemble_quoted (q : QuoteMark) (more : List Char) (name : String)
    (type : Option ArgumentType) (hdangling : Lexeme.dangling ∉ lexemes true text) :
    assemble false
        [.literal (text ++ [q.toChar]), .placeholder name type, .literal (q.toChar :: more)] =
      words (Token.place 0 (lexemes true text)) ++ .argument ⟨name, type, some q⟩ ::
        words (Token.place (byteLength [q.toChar]) (lexemes true more)) := by
  have hbefore : Token.ofText (text ++ [q.toChar]) = Token.place 0 (lexemes true text) ++
      [⟨byteLength text, String.ofList [q.toChar], .quote q⟩] := by
    rw [Token.ofText, Token.place_lexemes_quote 0 q [] hdangling, Nat.zero_add]
    simp [lexemes, Token.place]
  have hbehind : Token.ofText (q.toChar :: more) =
      ⟨0, String.ofList [q.toChar], .quote q⟩ ::
        Token.place (byteLength [q.toChar]) (lexemes true more) := by
    rw [Token.ofText, lexemes_quote, Token.place, Nat.zero_add]
  have hclosing : closingMark (text ++ [q.toChar]) (Token.ofText (text ++ [q.toChar])) = some q := by
    simp [closingMark, hbefore, byteLength_append]
  have hopening : openingMark (q.toChar :: more) = some q := by
    simp [openingMark, hbehind]
  have hmark : foldedMark (text ++ [q.toChar]) (Token.ofText (text ++ [q.toChar]))
      [.literal (q.toChar :: more)] = some q := by
    simp [foldedMark, hclosing, hopening]
  simp only [assemble, Bool.false_eq_true, if_false, if_true, List.drop_zero, List.append_nil,
    hmark]
  rw [hbefore, hbehind, List.dropLast_concat]
  rfl

theorem ofDeclaration_of_assemble {declaration : String} {declared : List Item}
    {segs : List Segment} (hitems : items 0 declaration.toList = .ok declared)
    (hsegs : segments 0 0 [] declared = .ok segs) (hne : assemble false segs ≠ []) :
    ∃ p, ofDeclaration declaration = .ok p ∧ p.parts = assemble false segs := by
  simp only [ofDeclaration, bind, Except.bind, hitems, hsegs]
  split
  · next hnil => exact absurd hnil hne
  · exact ⟨_, rfl, rfl⟩

/-- A declaration with a placeholder between equal quote marks is accepted. It compiles to words on
either side of a quoted argument. -/
theorem ofDeclaration_quoted (htext : IsPlain text) (hmore : IsPlain more)
    (hname : Item.isName name = true)
    (hhint : ∀ cs ∈ hint, (ArgumentType.ofHint? (String.ofList cs)).isSome = true)
    (q : QuoteMark) :
    ∃ p, ofDeclaration (String.ofList
          (q.enclose text (Item.placeholder name hint).source more)) = .ok p ∧
      p.parts = words (Token.place 0 (lexemes true text)) ++
        .argument ⟨String.ofList name, Item.hintedType hint, some q⟩ ::
          words (Token.place (byteLength [q.toChar]) (lexemes true more)) := by
  have hparts := assemble_quoted q more (String.ofList name) (Item.hintedType hint)
    (htext.dangling_not_mem true)
  rw [← hparts]
  refine ofDeclaration_of_assemble ?_ (segments_quoted hhint q) (by simp [hparts])
  rw [String.toList_ofList]
  exact items_quoted htext hmore hname hhint q

end Pattern

end

end StepLinker
