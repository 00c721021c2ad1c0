/-
Names of generated users in SQL statements.

A generated name is put between quotes as it is.  Only the part that it takes from the
role can hold anything but letters, digits and underscores, so the name is safe exactly
if that part is: eight bytes, cut wherever they end.
-/
import UbixVault.Lib.Quoted
import UbixVault.Proofs.Database.Basic

namespace UbixVault.Database

open Program

/-! ### Quoted names -/

/-- Bytes that mean something to the server inside or around quotes. -/
def metacharacter (b : Byte) : Bool :=
  b ∈ ([0x27, 0x22, 0x60, 0x5c, 0x3b, 0x00, 0x0a, 0x0d, 0x1a] : Bytes)

/-- What a byte after a backslash stands for. -/
def unescape (b : Byte) : Byte :=
  if b = 0x30 then 0x00
  else if b = 0x62 then 0x08
  else if b = 0x6e then 0x0a
  else if b = 0x72 then 0x0d
  else if b = 0x74 then 0x09
  else if b = 0x5a then 0x1a
  else b

def singleQuoted : Quoting Byte := ⟨0x27, some 0x5c, unescape⟩

def doubleQuoted : Quoting Byte := ⟨0x22, some 0x5c, unescape⟩

/-- Backslashes mean nothing between backticks. -/
def backQuoted : Quoting Byte := ⟨0x60, none, unescape⟩

/-- The ways in which MariaDB quotes a name. -/
def quotings : List (Quoting Byte) := [singleQuoted, doubleQuoted, backQuoted]

theorem quotings_metacharacter {Q : Quoting Byte} (hQ : Q ∈ quotings) :
    metacharacter Q.quote = true ∧ ∀ b, Q.escape = some b → metacharacter b = true := by
  simp only [quotings, List.mem_cons, List.not_mem_nil, or_false] at hQ
  rcases hQ with rfl | rfl | rfl
  · exact ⟨by decide, fun b hb => by rw [← Option.some.inj hb]; decide⟩
  · exact ⟨by decide, fun b hb => by rw [← Option.some.inj hb]; decide⟩
  · exact ⟨by decide, fun b hb => absurd hb nofun⟩

/-- A name without metacharacters is read as it stands, however it is quoted. -/
theorem read_of_plain {Q : Quoting Byte} (hQ : Q ∈ quotings) {name rest : Bytes}
    (hplain : ∀ b ∈ name, metacharacter b = false) (hrest : rest.head? ≠ some Q.quote) :
    Q.read (name ++ Q.quote :: rest) = some (name, rest) := by
  obtain ⟨hquote, hescape⟩ := quotings_metacharacter hQ
  refine Quoting.read_self (fun hmem => ?_) (fun b hb heq => ?_) hrest
  · exact absurd hquote (by rw [hplain _ hmem]; exact Bool.false_ne_true)
  · exact absurd (hescape b heq.symm) (by rw [hplain b hb]; exact Bool.false_ne_true)

/-! ### Statements -/

/-- A text without a byte is no longer than what stands before that byte. -/
theorem prefix_append_cons_iff {q : Byte} {old before rest : Bytes} (hq : q ∉ old) :
    old <+: before ++ q :: rest ↔ old <+: before := by
  refine ⟨fun h => ?_, fun h => h.trans (List.prefix_append _ _)⟩
  refine List.prefix_of_prefix_length_le h (List.prefix_append _ _) (Nat.le_of_not_lt fun hlong => hq ?_)
  have hseam : before ++ [q] <+: before ++ q :: rest := ⟨rest, by simp⟩
  exact (List.prefix_of_prefix_length_le hseam h (by simpa using hlong)).subset (by simp)

/-- Replacement goes up to a byte that is in no placeholder, and begins again after it. -/
theorem replace_append_cons {pairs : List (Bytes × Bytes)} {q : Byte}
    (hpairs : ∀ pair ∈ pairs, q ∉ pair.1 ∧ pair.1 ≠ []) (before rest : Bytes) :
    ∀ skip ≤ before.length, replace pairs skip (before ++ q :: rest)
      = replace pairs skip before ++ q :: replace pairs 0 rest := by
  have hfind : ∀ before, pairs.find? (fun pair => pair.1 <+: before ++ q :: rest)
      = pairs.find? (fun pair => pair.1 <+: before) := fun before =>
    List.find?_congr fun pair hpair => decide_eq_decide.mpr (prefix_append_cons_iff (hpairs pair hpair).1)
  induction before with
  | nil =>
    intro skip hskip
    obtain rfl : skip = 0 := Nat.le_zero.mp hskip
    have hnone : pairs.find? (fun pair => pair.1 <+: q :: rest) = none := by
      refine (hfind []).trans (List.find?_eq_none.mpr fun pair hpair hpfx => ?_)
      exact (hpairs pair hpair).2 (List.prefix_nil.mp (of_decide_eq_true hpfx))
    show replace pairs 0 (q :: rest) = q :: replace pairs 0 rest
    rw [replace, hnone]
  | cons b before ih =>
    intro skip hskip
    cases skip with
    | succ skip => exact ih skip (Nat.le_of_succ_le_succ hskip)
    | zero =>
      show replace pairs 0 (b :: (before ++ q :: rest)) = _
      rw [replace, replace, ← List.cons_append, hfind (b :: before)]
      cases hold : pairs.find? (fun pair => pair.1 <+: b :: before) with
      | none => exact congrArg (b :: ·) (ih 0 (Nat.zero_le _))
      | some pair =>
        have hpfx : pair.1 <+: b :: before := by simpa using List.find?_some hold
        dsimp only
        rw [ih _ (Nat.sub_le_of_le_add hpfx.length_le), List.append_assoc]

/-- The bytes of a placeholder are passed over once it is replaced. -/
theorem replace_skip (pairs : List (Bytes × Bytes)) (skipped rest : Bytes) :
    replace pairs skipped.length (skipped ++ rest) = replace pairs 0 rest := by
  induction skipped with
  | nil => rfl
  | cons b skipped ih =>
    show replace pairs (skipped.length + 1) (b :: (skipped ++ rest)) = _
    rw [replace]
    exact ih

variable {format : Time → Bytes} {req : CreateUserRequest}

/-- The placeholders of the name. -/
def usernamePlaceholders : List Bytes := [str "\x7b\x7busername\x7d\x7d", str "\x7b\x7bname\x7d\x7d"]

theorem find?_username (format : Time → Bytes) (req : CreateUserRequest) {old : Bytes}
    (hold : old ∈ usernamePlaceholders) (rest : Bytes) :
    (Mariadb.replacements format req).find? (fun pair => pair.1 <+: old ++ rest)
      = some (old, req.username) := by
  simp only [usernamePlaceholders, List.mem_cons, List.not_mem_nil, or_false] at hold
  rcases hold with rfl | rfl
  · exact List.find?_cons_of_pos (decide_eq_true (List.prefix_append _ _))
  · refine (List.find?_cons_of_neg fun h => ?_).trans
      (List.find?_cons_of_pos (decide_eq_true (List.prefix_append _ _)))
    have hpfx : str "\x7b\x7busername\x7d\x7d" <+: str "\x7b\x7bname\x7d\x7d" ++ rest :=
      of_decide_eq_true h
    -- The shorter placeholder would begin the longer one.
    exact absurd (List.prefix_of_prefix_length_le (List.prefix_append _ _) hpfx (by decide +kernel))
      (by decide +kernel)

theorem replace_username {old : Bytes} (hold : old ∈ usernamePlaceholders) (rest : Bytes) :
    replace (Mariadb.replacements format req) 0 (old ++ rest)
      = req.username ++ replace (Mariadb.replacements format req) 0 rest := by
  have hfind := find?_username format req hold rest
  cases old with
  | nil => exact absurd hold (by decide +kernel)
  | cons b old =>
    show replace _ 0 (b :: (old ++ rest)) = _
    rw [replace, ← List.cons_append, hfind]
    dsimp only
    rw [List.length_cons, Nat.add_sub_cancel, replace_skip]

/-- A statement with the name between quotes, as it is sent. -/
theorem statement_username {Q : Quoting Byte} (hQ : Q ∈ quotings) {old : Bytes}
    (hold : old ∈ usernamePlaceholders) (before after : Bytes) :
    Mariadb.statement format req (before ++ Q.quote :: (old ++ Q.quote :: after))
      = trimSpace (replace (Mariadb.replacements format req) 0 before ++ Q.quote ::
          (req.username ++ Q.quote :: replace (Mariadb.replacements format req) 0 after)) := by
  have hpairs : ∀ pair ∈ Mariadb.replacements format req, Q.quote ∉ pair.1 ∧ pair.1 ≠ [] := by
    have hall : ∀ Q ∈ quotings.map (·.quote), ∀ old ∈ (Mariadb.replacements format req).map Prod.fst,
        Q ∉ old ∧ old ≠ [] := by
      show ∀ Q ∈ [0x27, 0x22, 0x60], ∀ old ∈ usernamePlaceholders ++
        [str "\x7b\x7bpassword\x7d\x7d", str "\x7b\x7bexpiration\x7d\x7d"], Q ∉ old ∧ old ≠ []
      decide +kernel
    exact fun pair hpair => hall _ (List.mem_map_of_mem hQ) _ (List.mem_map_of_mem hpair)
  have hquoted := replace_append_cons hpairs [] after 0 (Nat.le_refl 0)
  rw [Mariadb.statement, replace_append_cons hpairs before _ 0 (Nat.zero_le _), replace_username hold]
  exact congrArg (fun s => trimSpace (_ ++ Q.quote :: (req.username ++ s))) hquoted

/-- The account that a statement drops. -/
def droppedAccount (stmt : Bytes) : Option Account :=
  if str "DROP USER IF EXISTS '" <+: stmt then
    match singleQuoted.read (stmt.drop (str "DROP USER IF EXISTS '").length) with
    | some (user, rest) =>
      if str "@'" <+: rest then
        match singleQuoted.read (rest.drop (str "@'").length) with
        | some (host, []) => some ⟨user, host⟩
        | _ => none
      else none
    | none => none
  else none

/-- Without backslashes, the account that is dropped is the one that is meant. -/
theorem droppedAccount_dropStatement {account : Account} (huser : (0x5c : Byte) ∉ account.user)
    (hhost : (0x5c : Byte) ∉ account.host) :
    droppedAccount (Mariadb.dropStatement account) = some account := by
  have hescape : ∀ {s : Bytes}, (0x5c : Byte) ∉ s → ∀ b ∈ s, some b ≠ singleQuoted.escape := by
    intro s hs b hb heq
    exact hs (Option.some.inj heq ▸ hb)
  have hform : Mariadb.dropStatement account = str "DROP USER IF EXISTS '" ++
      (singleQuoted.doubled account.user ++ singleQuoted.quote ::
        (str "@'" ++ (singleQuoted.doubled account.host ++ [singleQuoted.quote]))) := by
    have hsplit : str "'@'" = singleQuoted.quote :: str "@'" := by decide_cbv
    have hend : str "'" = [singleQuoted.quote] := by decide_cbv
    unfold Mariadb.dropStatement
    rw [hsplit, hend]
    simp only [List.append_assoc, List.cons_append]
    rfl
  have hread : singleQuoted.read (singleQuoted.doubled account.user ++ singleQuoted.quote ::
      (str "@'" ++ (singleQuoted.doubled account.host ++ [singleQuoted.quote])))
        = some (account.user, str "@'" ++ (singleQuoted.doubled account.host ++ [singleQuoted.quote])) :=
    Quoting.read_doubled (hescape huser) (by
      rw [List.head?_append_of_ne_nil _ (by decide_cbv)]
      decide_cbv)
  have hreadHost : singleQuoted.read (singleQuoted.doubled account.host ++ [singleQuoted.quote])
      = some (account.host, []) := Quoting.read_doubled (hescape hhost) (by simp)
  unfold droppedAccount
  rw [hform, if_pos (List.prefix_append _ _), List.drop_left, hread]
  simp only
  rw [if_pos (List.prefix_append _ _), List.drop_left, hreadHost]

/-! ### Generated names -/

/-- A name that can be put into statements as it is. -/
structure SafeName (username : Bytes) : Prop where
  utf8 : validUTF8 username = true
  plain : ∀ b ∈ username, metacharacter b = false
  /-- Between quotes of a creation statement, wherever it stands, the server reads this name. -/
  created : ∀ (format : Time → Bytes) (req : CreateUserRequest), req.username = username →
    ∀ Q ∈ quotings, ∀ old ∈ usernamePlaceholders, ∀ before after : Bytes,
      (replace (Mariadb.replacements format req) 0 after).head? ≠ some Q.quote →
        ∃ rest, Mariadb.statement format req (before ++ Q.quote :: (old ++ Q.quote :: after))
            = trimSpace (replace (Mariadb.replacements format req) 0 before ++ Q.quote :: rest) ∧
          Q.read rest = some (username, replace (Mariadb.replacements format req) 0 after)
  /-- The statement of a revocation is about an account of this name. -/
  dropped : ∀ host : Bytes, (0x5c : Byte) ∉ host →
    droppedAccount (Mariadb.dropStatement ⟨username, host⟩) = some ⟨username, host⟩
  /-- A revocation that meets no failure drops exactly the accounts of this name. -/
  revoked : ∀ (env : Env) (server : Server) (s : Site), (∀ s op, server.fails s op = false) →
    s.connected = true →
    exec (server.answer env) (Mariadb.revokeUser username) s
      = (.ok (), { s with accounts := s.accounts.filter (·.user ≠ username) })

theorem safeName_of_plain {username : Bytes} (hutf : validUTF8 username = true)
    (hplain : ∀ b ∈ username, metacharacter b = false) : SafeName username := by
  refine ⟨hutf, hplain, ?_, ?_, ?_⟩
  · intro format req huser Q hQ old hold before after hafter
    subst huser
    exact ⟨_, statement_username hQ hold before after, read_of_plain hQ hplain hafter⟩
  · intro host hhost
    refine droppedAccount_dropStatement (fun hmem => ?_) hhost
    exact absurd (hplain _ hmem) (by decide)
  · intro env server s hok hconn
    exact exec_revokeUser_ok env (fun s => hok s _) (fun s host => hok s _) hconn

theorem metacharacter_hexDigit {n : Nat} (hn : n < 16) : metacharacter (hexDigit n) = false := by
  have hall : ∀ m : Fin 16, metacharacter (hexDigit m) = false := by decide
  exact hall ⟨n, hn⟩

theorem validUTF8_usernameFor (role suffix : Bytes) :
    validUTF8 (usernameFor role suffix) = validUTF8 (role.take 8) := by
  have hascii : Ascii (str "uv_") := by decide +kernel
  have hform : usernameFor role suffix = str "uv_" ++ (role.take 8 ++ 0x5f :: hexEncode suffix) := by
    have hunderscore : str "_" = [0x5f] := by decide +kernel
    simp [usernameFor, hunderscore]
  rw [hform, validUTF8_append hascii, validUTF8_append_plain (by decide),
    validUTF8_of_ascii (ascii_hexEncode suffix),
    Bool.and_true]

theorem plain_usernameFor_iff (role suffix : Bytes) :
    (∀ b ∈ usernameFor role suffix, metacharacter b = false) ↔
      ∀ b ∈ role.take 8, metacharacter b = false := by
  have hfirst : ∀ b ∈ str "uv_", metacharacter b = false := by decide +kernel
  have hunderscore : ∀ b ∈ str "_", metacharacter b = false := by decide +kernel
  have hhex : ∀ b ∈ hexEncode suffix, metacharacter b = false := by
    intro b hb
    obtain ⟨n, hn, rfl⟩ := exists_hexDigit hb
    exact metacharacter_hexDigit hn
  constructor
  · intro h b hb
    exact h b (List.mem_append_left _ (List.mem_append_left _ (List.mem_append_right _ hb)))
  · intro h b hb
    simp only [usernameFor, List.mem_append] at hb
    rcases hb with ((hb | hb) | hb) | hb
    · exact hfirst b hb
    · exact h b hb
    · exact hunderscore b hb
    · exact hhex b hb

/-- A generated name is safe exactly if the part of the role's name that it takes is. -/
theorem safeName_usernameFor_iff (role suffix : Bytes) :
    SafeName (usernameFor role suffix) ↔
      validUTF8 (role.take 8) = true ∧ ∀ b ∈ role.take 8, metacharacter b = false := by
  constructor
  · intro h
    exact ⟨by rw [← validUTF8_usernameFor role suffix]; exact h.utf8,
      (plain_usernameFor_iff role suffix).mp h.plain⟩
  · intro ⟨hutf, hplain⟩
    exact safeName_of_plain (by rw [validUTF8_usernameFor]; exact hutf)
      ((plain_usernameFor_iff role suffix).mpr hplain)

/-- The engine accepts `a'b`, and the server then reads another name; of `aaaaaaaé` it takes
eight bytes, which are no text. -/
theorem unsafe_usernames :
    (validName (str "a'b") = true ∧ ¬ SafeName (usernameFor (str "a'b") [0, 0, 0, 0]) ∧
      singleQuoted.read (usernameFor (str "a'b") [0, 0, 0, 0] ++ str "'@'%'") = some
        (str "uv_a", str "b_00000000'@'%'")) ∧
    validName (str "aaaaaaaé") = true ∧
      ¬ SafeName (usernameFor (str "aaaaaaaé") [0, 0, 0, 0]) ∧
      validUTF8 (usernameFor (str "aaaaaaaé") [0, 0, 0, 0]) = false := by
  have hcut : validUTF8 (usernameFor (str "aaaaaaaé") [0, 0, 0, 0]) = false := by decide +kernel
  refine ⟨⟨by decide +kernel, fun h => ?_, by decide +kernel⟩, by decide +kernel, fun h => ?_, hcut⟩
  · exact absurd (h.plain 0x27 (by decide +kernel)) (by decide)
  · exact absurd h.utf8 (by rw [hcut]; exact Bool.false_ne_true)

end UbixVault.Database
