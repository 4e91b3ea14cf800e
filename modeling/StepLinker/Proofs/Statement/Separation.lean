import StepLinker.Proofs.Statement.Run

/-!
# Separation at quote marks

A quote mark is a token of its own, and nothing that the lexer looks at crosses it: names, numbers
and words end before it, and behind it an interpolation may begin as it may at the front of a text.
The one exception is a backslash right in front, which would protect the mark. So the tokens on
either side of a mark are those of the two texts alone, unless the left one ends in a backslash
that has nothing to protect (`ofText_separate`).
-/

namespace StepLinker

open Text

/-- The token is a backslash with nothing behind it to protect. -/
def Token.IsDangling (t : Token) : Prop :=
  t.kind = .punctuation ∧ t.text.toList = ['\\']

def Statement.EndsInBackslash (s : Statement) : Prop :=
  ∃ t, s.tokens.toList.getLast? = some t ∧ t.IsDangling

theorem getLast?_lexemes_of_dangling {boundary : Bool} {text : List Char}
    (h : Lexeme.dangling ∈ lexemes boundary text) :
    (lexemes boundary text).getLast? = some Lexeme.dangling := by
  fun_induction lexemes boundary text with
  | case1 => cases h
  | case2 boundary c rest ih =>
    rcases List.mem_cons.1 h with hfirst | hothers
    · have htext := Lexeme.next_append boundary c rest
      have hlast := Lexeme.next_eq_dangling hfirst.symm
      rw [← hfirst, hlast] at htext
      have hnil : (Lexeme.next boundary c rest).2 = [] := (List.cons.inj htext).2
      rw [hnil, ← hfirst, lexemes]
      rfl
    · obtain ⟨l, ls, hls⟩ := List.exists_cons_of_ne_nil (List.ne_nil_of_mem hothers)
      rw [hls, List.getLast?_cons_cons, ← hls, ih hothers]

theorem Token.stop_of_isDangling {boundary : Bool} {text : List Char} {offset : Nat} {t : Token}
    (h : t ∈ place offset (lexemes boundary text)) (ht : t.IsDangling) :
    t.stop = offset + byteLength text := by
  obtain ⟨before, c, rest, after, rfl, hstart, -, hreads⟩ := exists_reads_of_mem h
  obtain ⟨hkind, htext⟩ := ht
  rw [stop_eq, hstart, htext, byteLength_append]
  rw [hkind, htext] at hreads
  generalize htoken : Lexeme.token .punctuation ['\\'] = l at hreads
  cases hreads with
  | backslash slash last =>
    subst slash last
    omega
  | punctuation mark =>
    cases htoken
    exact absurd mark (by decide)
  | run word =>
    obtain ⟨hrunKind, -⟩ := Lexeme.token.inj htoken
    rcases Lexeme.runKind_cases (Lexeme.splitRun (c :: rest)).1 with ⟨h, -⟩ | ⟨h, -⟩ | h <;>
      rw [h] at hrunKind <;> cases hrunKind
  | _ => cases htoken

namespace Statement

theorem tokens_ofText (text : String) :
    (ofText text).tokens.toList = Token.place 0 (lexemes true text.toList) :=
  rfl

theorem endsInBackslash_of_dangling {text : String}
    (h : Lexeme.dangling ∈ lexemes true text.toList) : (ofText text).EndsInBackslash := by
  obtain ⟨ls, hls⟩ := List.getLast?_eq_some_iff.1 (getLast?_lexemes_of_dangling h)
  rw [EndsInBackslash, tokens_ofText, hls, Token.place_append]
  exact ⟨_, List.getLast?_concat, rfl, String.toList_ofList⟩

/-- The tokens of two texts with a quote mark between them are the tokens of the one, the mark, and
the tokens of the other that much further on, just if the first text does not end in a backslash
that protects nothing. -/
theorem ofText_separate (a b : String) (q : QuoteMark) :
    (ofText (a ++ String.singleton q.toChar ++ b)).tokens =
        (ofText a).tokens ++ #[⟨byteLength a.toList, String.singleton q.toChar, .quote q⟩] ++
          (ofText b).tokens.map (Token.shift (byteLength a.toList + 1)) ↔
      ¬ (ofText a).EndsInBackslash := by
  have htext : (a ++ String.singleton q.toChar ++ b).toList = a.toList ++ q.toChar :: b.toList := by
    simp
  have hmark : byteLength [q.toChar] = 1 := by
    cases q <;> rfl
  constructor
  · rintro hlaw ⟨t, hlast, ht⟩
    have hleft := List.mem_of_getLast? hlast
    have hwhole : t ∈ (ofText (a ++ String.singleton q.toChar ++ b)).tokens := by
      rw [hlaw]
      simp [Array.mem_toList_iff.1 hleft]
    -- the backslash would be the end of the left text and of the whole
    have hstop := Token.stop_of_isDangling (Array.mem_toList_iff.2 hwhole) ht
    rw [Token.stop_of_isDangling hleft ht, htext, byteLength_append, byteLength] at hstop
    have hpos := q.toChar.utf8Size_pos
    omega
  · intro hend
    have hdangling : Lexeme.dangling ∉ lexemes true a.toList :=
      fun h => hend (endsInBackslash_of_dangling h)
    have hplace := Token.place_lexemes_quote 0 q b.toList hdangling
    rw [← htext, Nat.zero_add, hmark] at hplace
    apply Array.toList_inj.1
    rw [tokens_ofText, hplace, Array.toList_append, Array.toList_append, Array.toList_map,
      tokens_ofText, tokens_ofText, ← Token.place_add, Nat.add_zero, List.append_assoc]
    rfl

end Statement

end StepLinker
