/-
The grammar of policy documents.

What the lexer and the parser accept is given a second time, as a grammar over
characters and one over tokens.  The lexer ends its tokens with one for the end of the
document and puts none before, so the loop over the blocks stops where the document
does.
-/
import UbixVault.Policy

namespace UbixVault

namespace Hcl

/-! ### The lexical grammar -/

/-- The rest of the text does not go on with such a character. -/
def Stops (p : Char → Bool) (rest : List Char) : Prop := ∀ c ∈ rest.head?, p c = false

/-- The text between the quotes of a string, and what it stands for. -/
inductive Quoted : List Char → List Char → Prop
  | nil : Quoted [] []
  | plain {c : Char} {text s : List Char} (hquote : c ≠ '"') (hescape : c ≠ '\\') (hline : c ≠ '\n')
      (h : Quoted text s) : Quoted (c :: text) (c :: s)
  | escaped {c : Char} {text s : List Char} (h : Quoted text s) : Quoted ('\\' :: c :: text) (c :: s)

/-- What stands between tokens, before the rest of the text: white space and comments. -/
inductive Gap : List Char → List Char → Prop
  | space {c : Char} {rest : List Char} (h : isSpace c = true) : Gap [c] rest
  | line {start text rest : List Char} (hstart : start = ['#'] ∨ start = ['/', '/'])
      (htext : '\n' ∉ text) (hend : Stops (· ≠ '\n') rest) : Gap (start ++ text) rest
  | block {text rest : List Char} (h : ¬ ['*', '/'] <:+: text) :
      Gap ('/' :: '*' :: text ++ ['*', '/']) rest

def marks : List (Char × TokenKind) :=
  [('{', .lBrace), ('}', .rBrace), ('[', .lBracket), (']', .rBracket), ('=', .equals), (',', .comma)]

/-- The text of a token, before the rest of the text. -/
inductive Lexeme (U : Unicode) : List Char → Token → List Char → Prop
  | string {text s rest : List Char} (h : Quoted text s) :
      Lexeme U ('"' :: text ++ ['"']) ⟨.string, s⟩ rest
  | mark {c : Char} {kind : TokenKind} {rest : List Char} (h : (c, kind) ∈ marks) :
      Lexeme U [c] ⟨kind, [c]⟩ rest
  | ident {c : Char} {text rest : List Char} (hspace : isSpace c = false)
      (hstart : isIdentStart U c = true) (htext : ∀ d ∈ text, isIdentPart U d = true)
      (hend : Stops (isIdentPart U) rest) : Lexeme U (c :: text) ⟨.ident, c :: text⟩ rest

/-- The tokens of a text. -/
inductive Lexes (U : Unicode) : List Char → List Token → Prop
  | eof : Lexes U [] [⟨.eof, []⟩]
  | gap {text rest : List Char} {toks : List Token} (h : Gap text rest) (hrest : Lexes U rest toks) :
      Lexes U (text ++ rest) toks
  | token {text rest : List Char} {t : Token} {toks : List Token} (h : Lexeme U text t rest)
      (hrest : Lexes U rest toks) : Lexes U (text ++ rest) (t :: toks)

/-! ### The grammar of the tokens -/

/-- The elements of a capability list.  The comma after one may be left out. -/
inductive Elements : List Token → List Capability → Prop
  | nil : Elements [] []
  | bare {v : List Char} {c : Capability} {ts : List Token} {cs : List Capability}
      (hc : Capability.ofText (encodeRunes v) = some c) (h : Elements ts cs) :
      Elements (⟨.string, v⟩ :: ts) (c :: cs)
  | comma {v w : List Char} {c : Capability} {ts : List Token} {cs : List Capability}
      (hc : Capability.ofText (encodeRunes v) = some c) (h : Elements ts cs) :
      Elements (⟨.string, v⟩ :: ⟨.comma, w⟩ :: ts) (c :: cs)

/-- One block: a path and the list of what is granted on it. -/
inductive Block : List Token → Rule → Prop
  | mk {path v₁ v₂ v₃ v₄ v₅ : List Char} {elems : List Token} {caps : List Capability}
      (helems : Elements elems caps) :
      Block ([⟨.ident, "path".toList⟩, ⟨.string, path⟩, ⟨.lBrace, v₁⟩,
        ⟨.ident, "capabilities".toList⟩, ⟨.equals, v₂⟩, ⟨.lBracket, v₃⟩] ++ elems ++
          [⟨.rBracket, v₄⟩] ++ [⟨.rBrace, v₅⟩]) ⟨encodeRunes path, caps⟩

/-- Blocks up to the end. -/
inductive Document : List Token → List Rule → Prop
  | eof : Document [⟨.eof, []⟩] []
  | block {ts rest : List Token} {r : Rule} {rules : List Rule} (hblock : Block ts r)
      (hrest : Document rest rules) : Document (ts ++ rest) (r :: rules)

theorem of_map_eq_ok {ε α β : Type} {x : Except ε α} {f : α → β} {b : β} (h : x.map f = .ok b) :
    ∃ a, x = .ok a ∧ b = f a := by
  cases x with
  | error e => cases h
  | ok a =>
    cases h
    exact ⟨a, rfl, rfl⟩

section Lexer

variable {U : Unicode} {text rest rs s next : List Char} {toks : List Token} {t : Token}

/-! ### What the lexer skips and takes together -/

theorem stops_dropWhile (p : Char → Bool) (rs : List Char) : Stops p (rs.dropWhile p) := by
  intro c hc
  have h := List.head?_dropWhile_not p rs
  rw [Option.mem_def.mp hc] at h
  exact h

theorem Stops.dropWhile_eq {p : Char → Bool} (h : Stops p rest) : rest.dropWhile p = rest := by
  cases rest with
  | nil => rfl
  | cons c rest => simp [h c rfl]

theorem Stops.takeWhile_eq {p : Char → Bool} (h : Stops p rest) : rest.takeWhile p = [] := by
  cases rest with
  | nil => rfl
  | cons c rest => simp [h c rfl]

/-- A line has no end in it and is followed by one or by nothing. -/
theorem skipLine_append (htext : '\n' ∉ text) (hend : Stops (· ≠ '\n') rest) :
    skipLine (text ++ rest) = rest := by
  unfold skipLine
  rw [List.dropWhile_append_of_pos]
  · exact hend.dropWhile_eq
  · intro c hc
    exact decide_eq_true (ne_of_mem_of_not_mem hc htext)

theorem exists_skipLine (rs : List Char) :
    ∃ text, rs = text ++ skipLine rs ∧ '\n' ∉ text ∧ Stops (· ≠ '\n') (skipLine rs) := by
  refine ⟨rs.takeWhile (· ≠ '\n'), List.takeWhile_append_dropWhile.symm, fun h => ?_,
    stops_dropWhile _ rs⟩
  simpa using List.mem_takeWhile_imp h

theorem exists_of_skipBlockComment (h : skipBlockComment rs = .ok next) :
    ∃ text, rs = text ++ ['*', '/'] ++ next ∧ ¬ ['*', '/'] <:+: text := by
  fun_induction skipBlockComment rs with
  | case1 rest =>
    cases h
    exact ⟨[], rfl, by decide⟩
  | case2 c rest hne ih =>
    obtain ⟨text, rfl, htext⟩ := ih h
    refine ⟨c :: text, rfl, fun hinfix => ?_⟩
    rcases List.infix_cons_iff.mp hinfix with ⟨after, hafter⟩ | hinfix
    · cases hafter
      exact hne _ rfl rfl
    · exact htext hinfix
  | case3 => cases h

/-- A block comment ends at the first end of one. -/
theorem skipBlockComment_append (htext : ¬ ['*', '/'] <:+: text) :
    skipBlockComment (text ++ ['*', '/'] ++ next) = .ok next := by
  induction text with
  | nil => rfl
  | cons c text ih =>
    have hrest : ¬ ['*', '/'] <:+: text := fun h => htext (h.trans (List.suffix_cons c text).isInfix)
    rw [List.cons_append, List.cons_append, skipBlockComment]
    · exact ih hrest
    · rintro after rfl hafter
      cases text with
      | nil => cases hafter
      | cons d text =>
        cases hafter
        exact htext ⟨[], text, rfl⟩

theorem quoted_of_lexString (h : lexString rs = .ok (s, next)) :
    ∃ text, rs = text ++ ['"'] ++ next ∧ Quoted text s := by
  fun_induction lexString rs generalizing s with
  | case1 => cases h
  | case2 rest =>
    cases h
    exact ⟨[], rfl, .nil⟩
  | case3 => cases h
  | case4 e rest _ ih =>
    obtain ⟨⟨s', next'⟩, hrest, ⟨⟩⟩ := of_map_eq_ok h
    obtain ⟨text, rfl, htext⟩ := ih hrest
    exact ⟨'\\' :: e :: text, rfl, .escaped htext⟩
  | case5 => cases h
  | case6 c rest hquote hescape hline ih =>
    obtain ⟨⟨s', next'⟩, hrest, ⟨⟩⟩ := of_map_eq_ok h
    obtain ⟨text, rfl, htext⟩ := ih hrest
    exact ⟨c :: text, rfl, .plain hquote hescape hline htext⟩

theorem Quoted.lexString_eq (h : Quoted text s) : lexString (text ++ ['"'] ++ next) = .ok (s, next) := by
  induction h with
  | nil => exact lexString.eq_def _
  | plain hquote hescape hline _ ih =>
    rw [List.cons_append, List.cons_append, lexString.eq_def]
    simp only [if_neg hquote, if_neg hescape, if_neg hline, ih]
    rfl
  | escaped _ ih =>
    simp only [List.cons_append, lexString, ih]
    rfl

/-! ### The lexer follows the grammar -/

/-- No mark, quote or sign of a comment starts an identifier. -/
theorem ne_of_isIdentStart {c d : Char} (h : isIdentStart U c = true)
    (hd : d.toNat < 0x80 ∧ (d.isAlpha || d == '_') = false) : c ≠ d := by
  rintro rfl
  rw [isIdentStart, U.isLetter_ascii c hd.1, hd.2] at h
  cases h

theorem lexIdent_cons {c : Char} (h : isIdentStart U c = true) (rest : List Char) :
    lexIdent U (c :: rest) =
      (c :: rest.takeWhile (isIdentPart U), rest.dropWhile (isIdentPart U)) := by
  have hpart : isIdentPart U c = true := by simp [isIdentPart, h]
  rw [lexIdent, List.takeWhile_cons_of_pos hpart, List.dropWhile_cons_of_pos hpart]

theorem Gap.lexHCL_eq (h : Gap text rest) : lexHCL U (text ++ rest) = lexHCL U rest := by
  cases h with
  | space h => rw [List.singleton_append, lexHCL, if_pos h]
  | @line start text rest hstart htext hend =>
    rcases hstart with rfl | rfl
    · rw [List.append_assoc, List.singleton_append, lexHCL, if_neg (by decide), if_pos rfl,
        skipLine_append htext hend]
    · have hslash : '\n' ∉ '/' :: text := by simpa using htext
      rw [List.append_assoc, List.cons_append, lexHCL, if_neg (by decide), if_neg (by decide),
        if_pos ⟨rfl, rfl⟩]
      exact congrArg (lexHCL U) (skipLine_append hslash hend)
  | @block text rest h =>
    rw [List.append_assoc, List.cons_append, lexHCL, if_neg (by decide), if_neg (by decide),
      if_neg (by simp), if_pos (by simp)]
    have hskip : skipBlockComment (text ++ (['*', '/'] ++ rest)) = .ok rest := by
      rw [← List.append_assoc]
      exact skipBlockComment_append h
    split
    · next e he => cases hskip.symm.trans he
    · next next hnext =>
      cases hskip.symm.trans hnext
      rfl

theorem Lexeme.lexHCL_eq (h : Lexeme U text t rest) :
    lexHCL U (text ++ rest) = (lexHCL U rest).map (t :: ·) := by
  cases h with
  | @string text s rest h =>
    rw [List.cons_append, List.cons_append, lexHCL, if_neg (by decide), if_neg (by decide),
      if_neg (by simp), if_neg (by simp), if_pos rfl]
    split
    · next e he => cases h.lexString_eq.symm.trans he
    · next s' next hnext =>
      cases h.lexString_eq.symm.trans hnext
      rfl
  | mark h =>
    simp only [marks, List.mem_cons, Prod.mk.injEq, List.not_mem_nil, or_false] at h
    rcases h with ⟨rfl, rfl⟩ | ⟨rfl, rfl⟩ | ⟨rfl, rfl⟩ | ⟨rfl, rfl⟩ | ⟨rfl, rfl⟩ | ⟨rfl, rfl⟩ <;>
      rw [List.singleton_append, lexHCL, if_neg (by decide)] <;> simp
  | @ident c text rest hspace hstart htext hend =>
    have hne : ∀ d ∈ ['#', '/', '"', '{', '}', '[', ']', '=', ','], c ≠ d := fun d hd =>
      ne_of_isIdentStart hstart (by fin_cases hd <;> decide)
    have hident : lexIdent U (c :: (text ++ rest)) = (c :: text, rest) := by
      rw [lexIdent_cons hstart, List.takeWhile_append_of_pos htext,
        List.dropWhile_append_of_pos htext, hend.takeWhile_eq, hend.dropWhile_eq, List.append_nil]
    simp only [List.forall_mem_cons, List.not_mem_nil, false_imp_iff, implies_true, and_true] at hne
    rw [List.cons_append, lexHCL]
    simp only [hspace, hne, hstart, hident, false_and, if_false, dite_true]
    simp

theorem Lexes.lexHCL_eq (h : Lexes U rs toks) : lexHCL U rs = .ok toks := by
  induction h with
  | eof => rw [lexHCL]
  | gap h _ ih => rw [h.lexHCL_eq, ih]
  | token h _ ih =>
    rw [h.lexHCL_eq, ih]
    rfl

theorem lexes_of_lexHCL (h : lexHCL U rs = .ok toks) : Lexes U rs toks := by
  fun_induction lexHCL U rs generalizing toks with
  | case1 =>
    cases h
    exact .eof
  | case2 c rest hspace ih => exact Lexes.gap (.space hspace) (ih h)
  | case3 rest _ ih =>
    obtain ⟨text, htext, hline, hend⟩ := exists_skipLine rest
    have hrest := Lexes.gap (.line (.inl rfl) hline hend) (ih h)
    rwa [List.append_assoc, ← htext] at hrest
  | case4 c rest _ _ hslash ih =>
    obtain ⟨rfl, hslash⟩ := hslash
    obtain ⟨rest, rfl⟩ := List.head?_eq_some_iff.mp hslash
    obtain ⟨text, htext, hline, hend⟩ := exists_skipLine rest
    have hskip : skipLine ('/' :: rest) = skipLine rest := rfl
    rw [hskip] at ih h
    have hrest := Lexes.gap (.line (.inr rfl) hline hend) (ih h)
    rwa [List.append_assoc, ← htext] at hrest
  | case5 => cases h
  | case6 c rest _ _ _ hstar next hnext ih =>
    obtain ⟨rfl, hstar⟩ := hstar
    obtain ⟨rest, rfl⟩ := List.head?_eq_some_iff.mp hstar
    obtain ⟨text, rfl, htext⟩ := exists_of_skipBlockComment hnext
    exact Lexes.gap (.block htext) (ih h)
  | case7 => cases h
  | case8 rest s next hs _ _ _ _ ih =>
    obtain ⟨toks, hrest, rfl⟩ := of_map_eq_ok h
    obtain ⟨text, rfl, hquoted⟩ := quoted_of_lexString hs
    exact Lexes.token (.string hquoted) (ih hrest)
  | case9 | case10 | case11 | case12 | case13 | case14 =>
    rename_i ih
    obtain ⟨toks, hrest, rfl⟩ := of_map_eq_ok h
    exact Lexes.token (.mark (by decide)) (ih hrest)
  | case15 c rest hspace _ _ _ _ _ _ _ _ _ _ hident ih =>
    obtain ⟨toks, hrest, rfl⟩ := of_map_eq_ok h
    rw [lexIdent_cons hident] at ih hrest ⊢
    have htext : ∀ d ∈ rest.takeWhile (isIdentPart U), isIdentPart U d = true := fun _ =>
      List.mem_takeWhile_imp
    have hlexes := Lexes.token (.ident (eq_false_of_ne_true hspace) hident htext
      (stops_dropWhile _ rest)) (ih hrest)
    rwa [List.cons_append, List.takeWhile_append_dropWhile] at hlexes
  | case16 => cases h

theorem lexHCL_iff : lexHCL U rs = .ok toks ↔ Lexes U rs toks :=
  ⟨lexes_of_lexHCL, Lexes.lexHCL_eq⟩

end Lexer

variable {toks next ts : List Token} {caps : List Capability} {rules : List Rule} {r : Rule}

/-! ### One step of the parser -/

theorem expect_eq_ok {kind : TokenKind} {val : List Char} (hkind : kind ≠ .eof) :
    expect kind toks = .ok (val, next) ↔ toks = ⟨kind, val⟩ :: next := by
  unfold expect
  cases toks with
  | nil => simp [peek, hkind.symm]
  | cons t rest =>
    obtain ⟨k, v⟩ := t
    by_cases h : k = kind <;> simp [peek, h]

theorem expectKeyword_eq_ok {word : String} :
    expectKeyword word toks = .ok next ↔ toks = ⟨.ident, word.toList⟩ :: next := by
  unfold expectKeyword
  cases toks with
  | nil => simp [peek]
  | cons t rest =>
    obtain ⟨k, v⟩ := t
    by_cases hk : k = .ident <;> by_cases hv : v = word.toList <;> simp [peek, hk, hv]

theorem elements_of_capabilities (h : capabilities toks = .ok (caps, next)) :
    ∃ elems v, toks = elems ++ ⟨.rBracket, v⟩ :: next ∧ Elements elems caps := by
  fun_induction capabilities toks generalizing caps with
  | case2 t rest hkind =>
    obtain ⟨k, v⟩ := t
    cases h
    cases hkind
    exact ⟨[], v, rfl, .nil⟩
  | case6 t _ hstring c hc t' rest hcomma ih =>
    obtain ⟨k, v⟩ := t
    obtain ⟨k', w⟩ := t'
    cases not_not.mp hstring
    cases hcomma
    obtain ⟨⟨cs, _⟩, hcs, ⟨⟩⟩ := of_map_eq_ok h
    obtain ⟨elems, u, rfl, helems⟩ := ih hcs
    exact ⟨_, u, rfl, .comma hc helems⟩
  | case7 t _ hstring c hc t' rest _ ih =>
    obtain ⟨k, v⟩ := t
    cases not_not.mp hstring
    obtain ⟨⟨cs, _⟩, hcs, ⟨⟩⟩ := of_map_eq_ok h
    obtain ⟨elems, u, heq, helems⟩ := ih hcs
    exact ⟨_, u, by rw [heq]; rfl, .bare hc helems⟩
  | _ => cases h

theorem Elements.capabilities_eq {elems : List Token} (h : Elements elems caps) (v : List Char) :
    capabilities (elems ++ ⟨.rBracket, v⟩ :: next) = .ok (caps, next) := by
  induction h with
  | nil => simp [capabilities]
  | @bare _ _ ts _ hc h ih =>
    obtain ⟨t, rest, heq, hcomma⟩ :
        ∃ t rest, ts ++ ⟨.rBracket, v⟩ :: next = t :: rest ∧ t.kind ≠ .comma := by
      cases h <;> exact ⟨_, _, rfl, by simp⟩
    rw [heq] at ih
    rw [List.cons_append, heq, capabilities]
    simp [hc, hcomma, ih, Except.map]
  | comma hc h ih => simp [capabilities, hc, ih, Except.map]

theorem pathBlock_eq_ok :
    pathBlock toks = .ok (r, next) ↔ ∃ ts, toks = ts ++ next ∧ Block ts r := by
  constructor
  · intro h
    obtain ⟨_, h₁, h⟩ := bind_eq_ok h
    obtain ⟨⟨path, _⟩, h₂, h⟩ := bind_eq_ok h
    obtain ⟨⟨v₁, _⟩, h₃, h⟩ := bind_eq_ok h
    obtain ⟨_, h₄, h⟩ := bind_eq_ok h
    obtain ⟨⟨v₂, _⟩, h₅, h⟩ := bind_eq_ok h
    obtain ⟨⟨caps, _⟩, h₆, h⟩ := bind_eq_ok h
    obtain ⟨⟨v₃, _⟩, h₇, h₈⟩ := bind_eq_ok h₆
    obtain ⟨⟨v₅, _⟩, h₉, h⟩ := bind_eq_ok h
    cases h
    obtain ⟨elems, v₄, rfl, helems⟩ := elements_of_capabilities h₈
    rw [expect_eq_ok (by decide)] at h₂ h₃ h₅ h₇ h₉
    rw [expectKeyword_eq_ok] at h₁ h₄
    subst h₁ h₂ h₃ h₄ h₅ h₇ h₉
    exact ⟨_, by simp, @Block.mk path v₁ v₂ v₃ v₄ v₅ _ _ helems⟩
  · rintro ⟨ts, rfl, ⟨helems⟩⟩
    simp [pathBlock, capabilityList, expect, expectKeyword, peek, helems.capabilities_eq, bind,
      Except.bind, pure, Except.pure]

/-! ### The whole document -/

/-- The end of a document is where it is over, and nowhere before. -/
inductive Ended : List Token → Prop
  | eof : Ended [⟨.eof, []⟩]
  | cons {t : Token} {rest : List Token} (ht : t.kind ≠ .eof) (h : Ended rest) : Ended (t :: rest)

theorem Lexes.ended {U : Unicode} {rs : List Char} (h : Lexes U rs toks) : Ended toks := by
  induction h with
  | eof => exact .eof
  | gap _ _ ih => exact ih
  | token h _ ih =>
    refine .cons (fun hkind => ?_) ih
    cases h with
    | string => cases hkind
    | mark h =>
      cases hkind
      simp [marks] at h
    | ident => cases hkind

theorem Ended.of_append {t : Token} (ht : t.kind ≠ .eof)
    (h : Ended (ts ++ t :: next)) : Ended next := by
  generalize heq : ts ++ t :: next = toks at h
  induction h generalizing ts with
  | eof => cases ts <;> simp_all
  | cons _ h ih =>
    cases ts with
    | nil =>
      cases heq
      exact h
    | cons t' ts =>
      cases heq
      exact ih rfl

theorem Block.ended (hblock : Block ts r) (h : Ended (ts ++ next)) : Ended next := by
  cases hblock
  rw [List.append_assoc] at h
  exact h.of_append (by simp)

theorem document_of_pathBlocks (hend : Ended toks) (h : pathBlocks toks = .ok rules) :
    Document toks rules := by
  fun_induction pathBlocks toks generalizing rules with
  | case1 toks heof =>
    cases h
    cases hend with
    | eof => exact .eof
    | cons ht _ => exact absurd heof ht
  | case2 => cases h
  | case3 toks _ r next hok ih =>
    obtain ⟨rest, hrest, rfl⟩ := of_map_eq_ok h
    obtain ⟨ts, rfl, hblock⟩ := pathBlock_eq_ok.mp hok
    exact .block hblock (ih (hblock.ended hend) hrest)

theorem Document.pathBlocks_eq (h : Document toks rules) : pathBlocks toks = .ok rules := by
  induction h with
  | eof => simp [pathBlocks, peek]
  | @block ts rest r rules hblock _ ih =>
    have hok : pathBlock (ts ++ rest) = .ok (r, rest) := pathBlock_eq_ok.mpr ⟨ts, rfl, hblock⟩
    have hpeek : (peek (ts ++ rest)).kind ≠ .eof := by
      cases hblock
      simp [peek]
    rw [pathBlocks, if_neg hpeek]
    split
    · next e herr => cases hok.symm.trans herr
    · next _ _ hok' =>
      cases hok.symm.trans hok'
      rw [ih]
      rfl

end Hcl

/--
**`ParseHCL` accepts exactly the grammar.**  A document is accepted when its characters
are those of tokens with white space and comments between, and these are a sequence of
blocks up to its end; then the policy has a rule for each block.
-/
theorem PolicyStore.parseHCL_iff (S : PolicyStore) (name data : Bytes) (p : Policy) :
    S.parseHCL name data = .ok p ↔ ∃ toks rules, Hcl.Lexes S.unicode (runes data) toks ∧
      Hcl.Document toks rules ∧ p = ⟨name, S.sorter.sort rules⟩ := by
  unfold PolicyStore.parseHCL
  simp only [← Hcl.lexHCL_iff]
  cases hlex : Hcl.lexHCL S.unicode (runes data) with
  | error why => simp
  | ok toks =>
    constructor
    · intro h
      obtain ⟨rules, hrules, h⟩ := bind_eq_ok h
      cases h
      have hend := (Hcl.lexHCL_iff.mp hlex).ended
      exact ⟨toks, rules, rfl, Hcl.document_of_pathBlocks hend hrules, rfl⟩
    · rintro ⟨_, rules, ⟨⟩, hdoc, rfl⟩
      simp only [hdoc.pathBlocks_eq]
      rfl

end UbixVault
