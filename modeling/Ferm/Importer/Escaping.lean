import Ferm.Importer.Writer
import Ferm.Parser.Evaluator

/-!
# Escaped values are read back

What the parser reads from a value the importer has escaped.
-/

namespace Ferm.Importer

open Evaluator

/-- The tokens of an escaped value and nothing else. -/
def escapedSource (value : String) : Evaluator.Source := ⟨tokenizeString (fermEscape (.scalar value)).toList, 0, []⟩

/-- The parser reads the value back from its escaped text and nothing is left. -/
def ReadsBack (env : Environment) (value : String) : Prop :=
  (getvalues env MAX_VALUE_DEPTH {} false).run (escapedSource value) = .ok (.scalar value, ⟨[], 0, []⟩)

namespace EscapingAux

/-! ### Tokens -/

/-- A text between single quotes is one token up to the first quote in it. -/
theorem tokenizeFrom_single {fuel : Nat} {body rest : List Char} (h : ∀ c ∈ body, c ≠ '\'' ∧ c ≠ '\n') :
    tokenizeFrom (fuel + 1) ('\'' :: body ++ '\'' :: rest) = ('\'' :: body ++ ['\'']) :: tokenizeFrom fuel rest := by
  have htake : (body ++ '\'' :: rest).takeWhile (fun d => d ≠ '\'' && d ≠ '\n') = body := by
    rw [List.takeWhile_append_of_pos fun c hc => by simpa using h c hc]
    simp
  rw [List.cons_append, tokenizeFrom, if_pos (Or.inr (Or.inl rfl))]
  simp only [htake]
  rw [List.drop_left, if_pos (by rfl), ← List.drop_drop, List.drop_left]
  rfl

theorem tokenizeFrom_nil (fuel : Nat) : tokenizeFrom fuel [] = [] := by
  cases fuel <;> rfl

/-- A run of word characters is one token. -/
theorem tokenizeFrom_word {fuel : Nat} {word : List Char} (hne : word ≠ []) (h : ∀ c ∈ word, isTokenWordChar c = true) :
    tokenizeFrom (fuel + 1) word = [word] := by
  obtain ⟨c, cs, rfl⟩ := List.exists_cons_of_ne_nil hne
  have hc := h c (by simp)
  have hcs : ∀ d ∈ cs, isTokenWordChar d = true := fun d hd => h d (List.mem_cons_of_mem _ hd)
  have hquote : ¬ (c = '"' ∨ c = '\'' ∨ c = Char.ofNat 0x60) := by
    rintro (rfl | rfl | rfl) <;> exact absurd hc (by decide)
  have hspecial : "!,=&$%()\x7b\x7d;".toList.contains c = false := by
    rw [Bool.eq_false_iff]
    intro hmem
    rw [List.contains_iff_mem] at hmem
    have hnone : "!,=&$%()\x7b\x7d;".toList.all (fun d => !isTokenWordChar d) = true := by decide
    have hword := List.all_eq_true.1 hnone c hmem
    rw [hc] at hword
    cases hword
  rw [tokenizeFrom, if_neg hquote, hspecial]
  simp [hc, List.takeWhile_eq_self_iff.2 hcs, List.dropWhile_eq_nil_iff.2 hcs, tokenizeFrom_nil]

theorem isTokenWordChar_of_bare {c : Char} (h : isBareChar c = true) : isTokenWordChar c = true := by
  simp only [isBareChar, isWordChar, Bool.or_eq_true, decide_eq_true_eq] at h
  rw [isTokenWordChar, Bool.or_eq_true]
  rcases h with ((((h | rfl) | rfl) | rfl) | rfl) | rfl
  · exact Or.inl h
  all_goals exact Or.inr (by decide)

/-! ### Values -/

variable {env : Environment} {depth : Nat} {opts : ReadOptions}

/-- A word is read as the value that begins with it. -/
theorem getvalues_word {word : String} (h : word ≠ ";" ∧ word ≠ "\x7b" ∧ word ≠ "\x7d") (rest : List Token) :
    (getvalues env (depth + 1) opts false).run ⟨.word word :: rest, 0, []⟩ =
      (tokenValue env (getvalues env depth) opts false word).run ⟨rest, 0, []⟩ := by
  have hrequire : (requireNextToken false).run ⟨.word word :: rest, 0, []⟩ = .ok (.word word, ⟨rest, 0, []⟩) := by
    have hnext : (Evaluator.nextToken false).run ⟨.word word :: rest, 0, []⟩ = .ok (some (.word word), ⟨rest, 0, []⟩) := rfl
    rw [requireNextToken, StateT.run_bind, hnext]
    simp only [bind, Except.bind, h, or_self, if_false]
    rfl
  rw [getvalues, StateT.run_bind, hrequire]
  rfl

theorem quotedInside_append (quote : Char) (body : List Char) :
    quotedInside quote (String.ofList (quote :: body ++ [quote])) = some (String.ofList body) := by
  simp [quotedInside]

theorem quotedInside_of_ne {quote c : Char} (h : c ≠ quote) (word : List Char) :
    quotedInside quote (String.ofList (c :: word)) = none := by
  simp [quotedInside, h]

theorem ofList_ne {c d : Char} (word word' : List Char) (h : c ≠ d) : String.ofList (c :: word) ≠ String.ofList (d :: word') := by
  intro heq
  have := String.ofList_injective heq
  exact h (List.head_eq_of_cons_eq this)

/-- What is between single quotes is read as it stands. -/
theorem tokenValue_single (read : ReadOptions → Bool → Eval Value) (body : List Char) (s : Evaluator.Source) :
    (tokenValue env read opts false (String.ofList ('\'' :: body ++ ['\'']))).run s = .ok (.scalar (String.ofList body), s) := by
  have hparen : String.ofList ('\'' :: body ++ ['\'']) ≠ "(" := ofList_ne _ [] (by decide)
  have hback : quotedInside (Char.ofNat 0x60) (String.ofList ('\'' :: body ++ ['\''])) = none :=
    quotedInside_of_ne (by decide) _
  rw [tokenValue, if_neg hparen, hback, quotedInside_append]
  rfl

/-- A bare word is read as it stands. -/
theorem tokenValue_bare (read : ReadOptions → Bool → Eval Value) {word : List Char} (hne : word ≠ [])
    (h : ∀ c ∈ word, isTokenWordChar c = true) (s : Evaluator.Source) :
    (tokenValue env read opts false (String.ofList word)).run s = .ok (.scalar (String.ofList word), s) := by
  obtain ⟨c, word, rfl⟩ := List.exists_cons_of_ne_nil hne
  have hc := h c (by simp)
  have hnot : ∀ d, isTokenWordChar d = false → c ≠ d := by
    rintro d hd rfl
    rw [hd] at hc
    cases hc
  have hword : ∀ d, isTokenWordChar d = false → String.ofList (c :: word) ≠ String.ofList [d] := fun d hd =>
    ofList_ne word [] (hnot d hd)
  have hhead : (String.ofList (c :: word)).toList.head? ≠ some '@' := by
    simpa using hnot '@' (by decide)
  rw [tokenValue, if_neg (hword '(' (by decide)), quotedInside_of_ne (hnot _ (by decide)), quotedInside_of_ne (hnot _ (by decide)),
    quotedInside_of_ne (hnot _ (by decide)), plainValue, if_neg (hword '!' (by decide)), if_neg (hword ',' (by decide)),
    if_neg (hword '=' (by decide)), if_neg (hword '$' (by decide)), if_neg (hword '&' (by decide)),
    if_neg fun hp => hword ')' (by decide) hp.1, if_neg hhead]
  rfl

/-- A text between single quotes is read up to the first quote in it. -/
theorem getvalues_single (body : List Char) (rest : List Token) :
    (getvalues env (depth + 1) opts false).run ⟨.word (String.ofList ('\'' :: body ++ ['\''])) :: rest, 0, []⟩ =
      .ok (.scalar (String.ofList body), ⟨rest, 0, []⟩) := by
  rw [getvalues_word, tokenValue_single]
  exact ⟨ofList_ne _ [] (by decide), ofList_ne _ [] (by decide), ofList_ne _ [] (by decide)⟩

theorem getvalues_bare {word : List Char} (hne : word ≠ []) (h : ∀ c ∈ word, isTokenWordChar c = true) (rest : List Token) :
    (getvalues env (depth + 1) opts false).run ⟨.word (String.ofList word) :: rest, 0, []⟩ =
      .ok (.scalar (String.ofList word), ⟨rest, 0, []⟩) := by
  rw [getvalues_word, tokenValue_bare _ hne h]
  have hnot : ∀ d, isTokenWordChar d = false → String.ofList word ≠ String.ofList [d] := by
    intro d hd heq
    have hmem := h d (by rw [String.ofList_injective heq]; simp)
    rw [hd] at hmem
    cases hmem
  exact ⟨hnot ';' (by decide), hnot '\x7b' (by decide), hnot '\x7d' (by decide)⟩

theorem tokenizeString_single {body : List Char} (rest : List Char) (h : ∀ c ∈ body, c ≠ '\'' ∧ c ≠ '\n') : ∃ tokens,
    tokenizeString ('\'' :: body ++ '\'' :: rest) = .word (String.ofList ('\'' :: body ++ ['\''])) :: tokens ∧
      (rest = [] → tokens = []) := by
  rw [tokenizeString, tokenizeFrom_single h]
  refine ⟨_, rfl, ?_⟩
  rintro rfl
  rw [tokenizeFrom_nil]
  rfl

end EscapingAux

open EscapingAux

/-- A value on one line is read back from its escaped text exactly when it has no single quote. -/
theorem escaped_reads_back_iff (env : Environment) (value : String) (h : '\n' ∉ value.toList) :
    ReadsBack env value ↔ '\'' ∉ value.toList := by
  unfold ReadsBack escapedSource
  by_cases hbare : (value.toList.isEmpty || value.toList.any fun c => !isBareChar c) = true
  · have hescape : (fermEscape (.scalar value)).toList = '\'' :: value.toList ++ ['\''] := by
      simp [fermEscape, stringify, hbare]
    rw [hescape]
    by_cases hquote : '\'' ∈ value.toList
    · obtain ⟨body, rest, hvalue, hbody⟩ := List.eq_append_cons_of_mem hquote
      have hchars : ∀ c ∈ body, c ≠ '\'' ∧ c ≠ '\n' := by
        intro c hc
        exact ⟨by rintro rfl; exact hbody hc, by rintro rfl; exact h (by rw [hvalue]; simp [hc])⟩
      obtain ⟨tokens, htokens, -⟩ := tokenizeString_single (rest ++ ['\'']) hchars
      have htext : '\'' :: value.toList ++ ['\''] = '\'' :: body ++ '\'' :: (rest ++ ['\'']) := by
        rw [hvalue]
        simp
      rw [htext, htokens, MAX_VALUE_DEPTH, getvalues_single]
      refine iff_of_false (fun hread => ?_) fun hno => hno hquote
      simp only [Except.ok.injEq, Prod.mk.injEq, Value.scalar.injEq] at hread
      have hsame : body = value.toList := by rw [← hread.1, String.toList_ofList]
      rw [hsame] at hvalue
      simp at hvalue
    · have hchars : ∀ c ∈ value.toList, c ≠ '\'' ∧ c ≠ '\n' := by
        intro c hc
        exact ⟨by rintro rfl; exact hquote hc, by rintro rfl; exact h hc⟩
      obtain ⟨tokens, htokens, hnil⟩ := tokenizeString_single [] hchars
      rw [htokens, hnil rfl, MAX_VALUE_DEPTH, getvalues_single, String.ofList_toList]
      exact iff_of_true rfl hquote
  · have hescape : fermEscape (.scalar value) = value := by
      simp only [fermEscape, stringify, hbare]
      rfl
    rw [Bool.not_eq_true, Bool.or_eq_false_iff, List.any_eq_false] at hbare
    have hne : value.toList ≠ [] := by simpa using hbare.1
    have hchars : ∀ c ∈ value.toList, isTokenWordChar c = true := fun c hc =>
      isTokenWordChar_of_bare (by simpa using hbare.2 c hc)
    rw [hescape, tokenizeString, tokenizeFrom_word hne hchars, List.map_singleton, MAX_VALUE_DEPTH, getvalues_bare hne hchars,
      String.ofList_toList]
    refine iff_of_true rfl fun hmem => ?_
    exact absurd (hchars _ hmem) (by decide)

/-- A scope without variables. -/
def emptyScope : Environment := ⟨[], true, fun _ => .ok [], fun _ => none⟩

/-- A comment with blanks is read back. -/
theorem escaped_comment_reads_back : '\n' ∉ "web server".toList ∧ ReadsBack emptyScope "web server" :=
  ⟨by decide, (escaped_reads_back_iff emptyScope "web server" (by decide)).2 (by decide)⟩

/-- A comment with an apostrophe is read up to it, and the rest is left over. -/
theorem escaped_apostrophe_cut : '\n' ∉ "it's".toList ∧ ¬ ReadsBack emptyScope "it's" := by
  refine ⟨by decide, fun h => ?_⟩
  have hread : (getvalues emptyScope MAX_VALUE_DEPTH {} false).run (escapedSource "it's") =
      .ok (.scalar "it", ⟨[.word "s"], 0, []⟩) := rfl
  rw [ReadsBack, hread] at h
  simp at h

end Ferm.Importer
