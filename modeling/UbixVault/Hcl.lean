/-
The HCL subset in which policies are written.

The source keeps an index into a slice of runes and later into a slice of tokens;
here that is what is left of a list.  Which characters are letters and digits is
in the Unicode tables of the standard library, of which only the plain ones are
spelled out.
-/
import UbixVault.Acl

namespace UbixVault

/-- `unicode.IsLetter` and `unicode.IsDigit`. -/
structure Unicode where
  isLetter : Char → Bool
  isDigit : Char → Bool
  isLetter_ascii : ∀ c, c.toNat < 0x80 → isLetter c = c.isAlpha
  isDigit_ascii : ∀ c, c.toNat < 0x80 → isDigit c = c.isDigit

namespace Hcl

/-! ### The lexer -/

inductive TokenKind
  | eof | ident | string | lBrace | rBrace | lBracket | rBracket | equals | comma
  deriving DecidableEq, Repr

structure Token where
  kind : TokenKind
  val : List Char
  deriving DecidableEq, Repr

/-- The rest of the line, with its end. -/
def skipLine (rs : List Char) : List Char := rs.dropWhile (· ≠ '\n')

/-- What comes after the end of a block comment. -/
def skipBlockComment : List Char → Except Bytes (List Char)
  | '*' :: '/' :: rest => .ok rest
  | _ :: rest => skipBlockComment rest
  | [] => .error (str "unterminated block comment")

/-- A string after its opening quote, and what comes after the closing one. -/
def lexString : List Char → Except Bytes (List Char × List Char)
  | [] => .error (str "unterminated string")
  | c :: rest =>
    if c = '"' then .ok ([], rest)
    else if c = '\\' then
      match rest with
      | [] => .error (str "unterminated string escape")
      | e :: rest => (lexString rest).map fun (s, next) => (e :: s, next)
    else if c = '\n' then .error (str "unterminated string")
    else (lexString rest).map fun (s, next) => (c :: s, next)

variable (U : Unicode)

def isIdentStart (c : Char) : Bool := U.isLetter c || c == '_'

def isIdentPart (c : Char) : Bool := isIdentStart U c || U.isDigit c || c == '-'

def lexIdent (rs : List Char) : List Char × List Char :=
  (rs.takeWhile (isIdentPart U), rs.dropWhile (isIdentPart U))

theorem skipBlockComment_length {rs next : List Char} (h : skipBlockComment rs = .ok next) :
    next.length < rs.length := by
  fun_induction skipBlockComment rs with
  | case1 rest =>
    simp only [Except.ok.injEq] at h
    subst h
    simp only [List.length_cons]
    omega
  | case2 c rest hne ih => exact Nat.lt_succ_of_lt (ih h)
  | case3 => simp at h

/-- One more element in front of those that were read. -/
private theorem length_of_map {ε α τ : Type} {a : α} {l : List τ} {as : List α} {next : List τ}
    {x : Except ε (List α × List τ)} (ih : ∀ {as}, x = .ok (as, next) → next.length < l.length)
    (h : (x.map fun (as, next) => (a :: as, next)) = .ok (as, next)) :
    next.length < l.length := by
  cases x with
  | error e => simp [Except.map] at h
  | ok r =>
    simp only [Except.map, Except.ok.injEq, Prod.mk.injEq] at h
    refine @ih r.1 ?_
    rw [← h.2]

theorem lexString_length {rs s next : List Char} (h : lexString rs = .ok (s, next)) :
    next.length < rs.length := by
  fun_induction lexString rs generalizing s with
  | case1 => simp at h
  | case2 rest =>
    simp only [Except.ok.injEq, Prod.mk.injEq] at h
    rw [← h.2]
    exact Nat.lt_succ_self _
  | case3 => simp at h
  | case4 e rest _ ih =>
    have hlt := length_of_map ih h
    simp only [List.length_cons]
    omega
  | case5 => simp at h
  | case6 c rest _ _ _ ih => exact Nat.lt_succ_of_lt (length_of_map ih h)

/-- What starts an identifier belongs to it, so there is less left. -/
theorem lexIdent_length {c : Char} (h : isIdentStart U c = true) (rest : List Char) :
    (lexIdent U (c :: rest)).2.length < (c :: rest).length := by
  have hpart : isIdentPart U c = true := by simp [isIdentPart, h]
  unfold lexIdent
  rw [List.dropWhile_cons_of_pos hpart]
  exact Nat.lt_succ_of_le (List.dropWhile_suffix _).length_le

/-- `lexHCL`: the tokens of a document, with one for its end. -/
def lexHCL (rs : List Char) : Except Bytes (List Token) :=
  match rs with
  | [] => .ok [⟨.eof, []⟩]
  | c :: rest =>
    if isSpace c then lexHCL rest
    else if c = '#' then lexHCL (skipLine rest)
    else if c = '/' ∧ rest.head? = some '/' then lexHCL (skipLine rest)
    else if c = '/' ∧ rest.head? = some '*' then
      match h : skipBlockComment rest.tail with
      | .error e => .error e
      | .ok next => lexHCL next
    else if c = '"' then
      match h : lexString rest with
      | .error e => .error e
      | .ok (s, next) => (lexHCL next).map (⟨.string, s⟩ :: ·)
    else if c = '{' then (lexHCL rest).map (⟨.lBrace, [c]⟩ :: ·)
    else if c = '}' then (lexHCL rest).map (⟨.rBrace, [c]⟩ :: ·)
    else if c = '[' then (lexHCL rest).map (⟨.lBracket, [c]⟩ :: ·)
    else if c = ']' then (lexHCL rest).map (⟨.rBracket, [c]⟩ :: ·)
    else if c = '=' then (lexHCL rest).map (⟨.equals, [c]⟩ :: ·)
    else if c = ',' then (lexHCL rest).map (⟨.comma, [c]⟩ :: ·)
    else if hident : isIdentStart U c then
      (lexHCL (lexIdent U (c :: rest)).2).map (⟨.ident, (lexIdent U (c :: rest)).1⟩ :: ·)
    else .error (str "unexpected character " ++ quote (encodeRune c))
termination_by rs.length
decreasing_by
  · exact Nat.lt_succ_self _
  · exact Nat.lt_succ_of_le (List.dropWhile_suffix _).length_le
  · exact Nat.lt_succ_of_le (List.dropWhile_suffix _).length_le
  · have hlt := skipBlockComment_length h
    rw [List.length_tail] at hlt
    simp only [List.length_cons]
    omega
  · exact Nat.lt_succ_of_lt (lexString_length h)
  all_goals first
    | exact Nat.lt_succ_self _
    | exact lexIdent_length U hident rest

/-! ### The parser -/

/-- `wrapMalformed`. -/
def malformed (why : Bytes) : Err := .explain (.policy .malformedPolicy) why

/-- The token at the position of the parser. -/
def peek (toks : List Token) : Token := toks.headD ⟨.eof, []⟩

def expect (kind : TokenKind) (toks : List Token) : Except Err (List Char × List Token) :=
  if (peek toks).kind ≠ kind then
    .error (malformed (str "unexpected token " ++ quote (encodeRunes (peek toks).val)))
  else .ok ((peek toks).val, toks.tail)

def expectKeyword (word : String) (toks : List Token) : Except Err (List Token) :=
  if (peek toks).kind ≠ .ident ∨ (peek toks).val ≠ word.toList then
    .error (malformed (str "expected " ++ quote (str word) ++ str ", got " ++
      quote (encodeRunes (peek toks).val)))
  else .ok toks.tail

/-- The elements of a capability list, after its opening bracket. -/
def capabilities : List Token → Except Err (List Capability × List Token)
  | [] => .error (malformed (str "unexpected token " ++ quote []))
  | t :: rest =>
    if t.kind = .rBracket then .ok ([], rest)
    else if t.kind ≠ .string then
      .error (malformed (str "unexpected token " ++ quote (encodeRunes t.val)))
    else
      match Capability.ofText (encodeRunes t.val) with
      | none => .error (.explain (.policy .unknownCapability) (quote (encodeRunes t.val)))
      | some c =>
        match rest with
        | [] => .error (malformed (str "unexpected token " ++ quote []))
        | t' :: rest' =>
          -- The comma between two elements may be left out.
          if t'.kind = .comma then (capabilities rest').map fun (cs, next) => (c :: cs, next)
          else (capabilities (t' :: rest')).map fun (cs, next) => (c :: cs, next)
termination_by toks => toks.length

def capabilityList (toks : List Token) : Except Err (List Capability × List Token) := do
  let (_, toks) ← expect .lBracket toks
  capabilities toks

/-- One block of a document: a path and what is granted on it. -/
def pathBlock (toks : List Token) : Except Err (Rule × List Token) := do
  let toks ← expectKeyword "path" toks
  let (pattern, toks) ← expect .string toks
  let (_, toks) ← expect .lBrace toks
  let toks ← expectKeyword "capabilities" toks
  let (_, toks) ← expect .equals toks
  let (caps, toks) ← capabilityList toks
  let (_, toks) ← expect .rBrace toks
  return ({ path := encodeRunes pattern, capabilities := caps }, toks)

/-! Every step of the parser leaves fewer tokens. -/

theorem expect_length {kind : TokenKind} {toks next : List Token} {val : List Char}
    (hkind : kind ≠ .eof) (h : expect kind toks = .ok (val, next)) : next.length < toks.length := by
  unfold expect at h
  split_ifs at h with hne
  cases toks with
  | nil => exact absurd (not_not.mp hne).symm hkind
  | cons t rest =>
    simp only [Except.ok.injEq, Prod.mk.injEq] at h
    rw [← h.2]
    exact Nat.lt_succ_self _

theorem expectKeyword_length {word : String} {toks next : List Token}
    (h : expectKeyword word toks = .ok next) : next.length < toks.length := by
  unfold expectKeyword at h
  split_ifs at h with hne
  cases toks with
  | nil => exact absurd (.inl (by simp [peek])) hne
  | cons t rest =>
    simp only [Except.ok.injEq] at h
    rw [← h]
    exact Nat.lt_succ_self _

theorem capabilities_length {toks next : List Token} {caps : List Capability}
    (h : capabilities toks = .ok (caps, next)) : next.length < toks.length := by
  fun_induction capabilities toks generalizing caps with
  | case1 => simp at h
  | case2 t rest hkind =>
    simp only [Except.ok.injEq, Prod.mk.injEq] at h
    rw [← h.2]
    exact Nat.lt_succ_self _
  | case3 => simp at h
  | case4 => simp at h
  | case5 => simp at h
  | case6 t _ _ c _ t' rest _ ih =>
    have hlt := length_of_map ih h
    simp only [List.length_cons]
    omega
  | case7 t _ _ c _ t' rest _ ih => exact Nat.lt_succ_of_lt (length_of_map ih h)

theorem capabilityList_length {toks next : List Token} {caps : List Capability}
    (h : capabilityList toks = .ok (caps, next)) : next.length < toks.length := by
  obtain ⟨⟨val, toks₁⟩, h₁, h₂⟩ := bind_eq_ok h
  exact (capabilities_length h₂).trans (expect_length (by decide) h₁)

theorem pathBlock_length {toks next : List Token} {r : Rule}
    (h : pathBlock toks = .ok (r, next)) : next.length < toks.length := by
  obtain ⟨toks₁, h₁, h⟩ := bind_eq_ok h
  obtain ⟨⟨pattern, toks₂⟩, h₂, h⟩ := bind_eq_ok h
  obtain ⟨⟨_, toks₃⟩, h₃, h⟩ := bind_eq_ok h
  obtain ⟨toks₄, h₄, h⟩ := bind_eq_ok h
  obtain ⟨⟨_, toks₅⟩, h₅, h⟩ := bind_eq_ok h
  obtain ⟨⟨caps, toks₆⟩, h₆, h⟩ := bind_eq_ok h
  obtain ⟨⟨_, toks₇⟩, h₇, h⟩ := bind_eq_ok h
  cases h
  have hlt₁ := expectKeyword_length h₁
  have hlt₂ := expect_length (by decide) h₂
  have hlt₃ := expect_length (by decide) h₃
  have hlt₄ := expectKeyword_length h₄
  have hlt₅ := expect_length (by decide) h₅
  have hlt₆ := capabilityList_length h₆
  have hlt₇ := expect_length (by decide) h₇
  omega

/-- The loop of `ParseHCL`: blocks up to the end of the document. -/
def pathBlocks (toks : List Token) : Except Err (List Rule) :=
  if (peek toks).kind = .eof then .ok []
  else
    match h : pathBlock toks with
    | .error e => .error e
    | .ok (r, next) => (pathBlocks next).map (r :: ·)
termination_by toks.length
decreasing_by exact pathBlock_length h

end Hcl

end UbixVault
