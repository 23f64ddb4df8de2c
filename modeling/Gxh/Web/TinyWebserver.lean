import Gxh.Http.Message
import Gxh.Lib.SqlLiteral
import Mathlib.Data.List.TakeWhile

/-!
# The register and log-in pages

`check_register_page` and `check_log_page` of `tiny_webserver.cc`, from the two parameters of the
request on. A response is the page whose file is its body. What the pool answers to a text is an
input; along with the page the functions give the texts they hand to it.

The texts are put together from the parameters as they are, and `mysql_query` reads them up to the
first NUL. `statements_faithful` says for which parameters they are the statements they look like.
-/

namespace Gxh.TinyWebserver

open HttpParser (bytes)
open Http (cStr cStr_of_not_mem)
open SqlLiteral

/-- The files the two functions answer with. -/
inductive Page
  | log
  | registerError
  | welcome
  | logError
  deriving DecidableEq, Repr

/-- The answers of `m_sql_pool`: the rows of a result, `none` when `Query` returns false. -/
structure Pool where
  query : List UInt8 → Option (List (List (List UInt8)))
  insert : List UInt8 → Bool

/-- The text of the stream before `Query`. -/
def selectText (user : List UInt8) : List UInt8 :=
  bytes "select passwd from user where username = '" ++ user ++ bytes "'"

/-- The text of the stream before `Insert`. -/
def insertText (user password : List UInt8) : List UInt8 :=
  bytes "insert into user(username, passwd) values('" ++ user ++ bytes "', '" ++ password ++
    bytes "')"

/-- `TinyWebserver::check_register_page`. -/
def checkRegisterPage (pool : Pool) (user password : List UInt8) : Page × List (List UInt8) :=
  let select := cStr (selectText user)
  match pool.query select with
  | some res =>
      if !res.isEmpty then (.registerError, [select])
      else
        let insert := cStr (insertText user password)
        if pool.insert insert then (.log, [select, insert])
        else (.registerError, [select, insert])
  | none => (.registerError, [select])

/-- The logged-in users and their passwords. -/
abbrev UserPass := List (List UInt8 × List UInt8)

/-- `TinyWebserver::check_log_page`, with `m_userpass` before and after. The timer that takes the
user out again is left out. -/
def checkLogPage (pool : Pool) (userpass : UserPass) (user password : List UInt8) :
    Page × List (List UInt8) × UserPass :=
  if user.length ≠ 0 ∧ password.length ≠ 0 then
    match userpass.lookup user with
    | none =>
        let select := cStr (selectText user)
        match pool.query select with
        | none => (.logError, [select], userpass)
        | some res =>
            if !res.isEmpty && (res.headD []).headD [] == password then
              (.welcome, [select], (user, password) :: userpass)
            else (.logError, [select], userpass)
    | some pass => (if pass == password then .welcome else .logError, [], userpass)
  else (.logError, [], userpass)

/-! ## What the texts are meant to be -/

/-- The statement that looks up `user`. -/
def IsSelect (text user : List UInt8) : Prop :=
  ∃ l, text = bytes "select passwd from user where username = " ++ l ∧ Denotes l user

/-- The statement that enters `user` with `password`. -/
def IsInsert (text user password : List UInt8) : Prop :=
  ∃ l₁ l₂, text = bytes "insert into user(username, passwd) values(" ++ l₁ ++ bytes ", " ++ l₂ ++
      bytes ")" ∧ Denotes l₁ user ∧ Denotes l₂ password

/-- Plain, and without a NUL. -/
def Clean (v : List UInt8) : Prop := plain v = true ∧ 0 ∉ v

instance (v : List UInt8) : Decidable (Clean v) := inferInstanceAs (Decidable (_ ∧ _))

/-! ## When they are -/

theorem length_cStr_le (t : List UInt8) : (cStr t).length ≤ t.length :=
  (List.takeWhile_prefix _).length_le

/-- A text that is not cut off has no NUL. -/
theorem not_mem_of_length_cStr {t : List UInt8} (h : (cStr t).length = t.length) : 0 ∉ t := by
  have heq : cStr t = t := (List.takeWhile_prefix _).eq_of_length h
  intro hmem
  rw [← heq] at hmem
  have := List.mem_takeWhile_imp hmem
  simp at this

theorem selectText_eq (user : List UInt8) :
    selectText user = bytes "select passwd from user where username = " ++ enclose user := by
  have hhead : bytes "select passwd from user where username = '" =
      bytes "select passwd from user where username = " ++ [quote] := rfl
  rw [selectText, hhead, enclose, List.append_assoc, List.append_assoc]
  rfl

theorem insertText_eq (user password : List UInt8) :
    insertText user password = bytes "insert into user(username, passwd) values(" ++
      enclose user ++ bytes ", " ++ enclose password ++ bytes ")" := by
  have hhead : bytes "insert into user(username, passwd) values('" =
      bytes "insert into user(username, passwd) values(" ++ [quote] := rfl
  have hsep : bytes "', '" = [quote] ++ bytes ", " ++ [quote] := rfl
  have htail : bytes "')" = [quote] ++ bytes ")" := rfl
  rw [insertText, hhead, hsep, htail]
  simp only [enclose, List.append_assoc, List.cons_append, List.nil_append]

theorem length_enclose (v : List UInt8) : (enclose v).length = v.length + 2 := by
  rw [enclose, List.length_cons, List.length_append, List.length_singleton]

theorem zero_mem_enclose {v : List UInt8} : 0 ∈ enclose v ↔ 0 ∈ v := by
  have hq : (0 : UInt8) ≠ quote := by decide
  simp [enclose, hq]

/-- The two literals of a text leave no room: neither has escapes, and nothing was cut off. -/
theorem isSelect_iff (user : List UInt8) : IsSelect (cStr (selectText user)) user ↔ Clean user := by
  have hfixed : 0 ∉ bytes "select passwd from user where username = " := by decide
  constructor
  · rintro ⟨l, heq, hl⟩
    have hcut := length_cStr_le (selectText user)
    have hroom := hl.length
    have hlen := congrArg List.length heq
    have htext := congrArg List.length (selectText_eq user)
    rw [List.length_append] at hlen
    rw [List.length_append, length_enclose] at htext
    have hwhole := not_mem_of_length_cStr (t := selectText user) (by omega)
    rw [selectText_eq, List.mem_append, zero_mem_enclose] at hwhole
    exact ⟨hl.plain (by omega), fun hmem => hwhole (.inr hmem)⟩
  · rintro ⟨hplain, hnul⟩
    refine ⟨enclose user, ?_, denotes_enclose hplain⟩
    rw [selectText_eq, cStr_of_not_mem]
    rw [List.mem_append, zero_mem_enclose]
    rintro (hmem | hmem)
    · exact hfixed hmem
    · exact hnul hmem

theorem isInsert_iff (user password : List UInt8) :
    IsInsert (cStr (insertText user password)) user password ↔ Clean user ∧ Clean password := by
  have hhead : 0 ∉ bytes "insert into user(username, passwd) values(" := by decide
  have hsep : 0 ∉ bytes ", " := by decide
  have htail : 0 ∉ bytes ")" := by decide
  constructor
  · rintro ⟨l₁, l₂, heq, hl₁, hl₂⟩
    have hcut := length_cStr_le (insertText user password)
    have hroom₁ := hl₁.length
    have hroom₂ := hl₂.length
    have hlen := congrArg List.length heq
    have htext := congrArg List.length (insertText_eq user password)
    simp only [List.length_append] at hlen
    simp only [List.length_append, length_enclose] at htext
    have hwhole := not_mem_of_length_cStr (t := insertText user password) (by omega)
    simp only [insertText_eq, List.mem_append, zero_mem_enclose, not_or] at hwhole
    obtain ⟨⟨⟨⟨-, huser⟩, -⟩, hpassword⟩, -⟩ := hwhole
    exact ⟨⟨hl₁.plain (by omega), huser⟩, hl₂.plain (by omega), hpassword⟩
  · rintro ⟨⟨hplain₁, hnul₁⟩, hplain₂, hnul₂⟩
    refine ⟨enclose user, enclose password, ?_, denotes_enclose hplain₁, denotes_enclose hplain₂⟩
    rw [insertText_eq, cStr_of_not_mem]
    simp only [List.mem_append, zero_mem_enclose, not_or]
    exact ⟨⟨⟨⟨hhead, hnul₁⟩, hsep⟩, hnul₂⟩, htail⟩

/-- The texts of the two functions: whatever the answers, the first of `check_register_page` looks
up the user and the second enters him, and the one of `check_log_page` looks him up. -/
def StatementsFaithful (user password : List UInt8) : Prop :=
  (∀ pool, (∀ text ∈ (checkRegisterPage pool user password).2.take 1, IsSelect text user) ∧
    ∀ text ∈ (checkRegisterPage pool user password).2.drop 1, IsInsert text user password) ∧
  ∀ pool userpass, ∀ text ∈ (checkLogPage pool userpass user password).2.1, IsSelect text user

/-- The register page begins with the select and goes on, if at all, with the insert. -/
theorem checkRegisterPage_texts (pool : Pool) (user password : List UInt8) :
    (checkRegisterPage pool user password).2 = [cStr (selectText user)] ∨
    (checkRegisterPage pool user password).2 =
      [cStr (selectText user), cStr (insertText user password)] := by
  unfold checkRegisterPage
  dsimp only
  split
  · split
    · exact .inl rfl
    · split
      · exact .inr rfl
      · exact .inr rfl
  · exact .inl rfl

theorem checkLogPage_texts (pool : Pool) (userpass : UserPass) (user password : List UInt8) :
    ∀ text ∈ (checkLogPage pool userpass user password).2.1, text = cStr (selectText user) := by
  intro text htext
  unfold checkLogPage at htext
  dsimp only at htext
  split at htext
  · split at htext
    · split at htext
      · exact List.mem_singleton.mp htext
      · split at htext
        · exact List.mem_singleton.mp htext
        · exact List.mem_singleton.mp htext
    · cases htext
  · cases htext

theorem statements_faithful (user password : List UInt8) :
    StatementsFaithful user password ↔ Clean user ∧ Clean password := by
  constructor
  · rintro ⟨hregister, -⟩
    -- a user that is not there yet
    have hinsert := (hregister ⟨fun _ => some [], fun _ => true⟩).2
    exact (isInsert_iff user password).mp (hinsert _ (List.mem_singleton_self _))
  · rintro ⟨huser, hpassword⟩
    have hselect := (isSelect_iff user).mpr huser
    have hinsert := (isInsert_iff user password).mpr ⟨huser, hpassword⟩
    refine ⟨?_, ?_⟩
    · intro pool
      rcases checkRegisterPage_texts pool user password with htexts | htexts
      · rw [htexts]
        refine ⟨?_, ?_⟩
        · intro text htext
          rw [List.mem_singleton.mp htext]
          exact hselect
        · intro text htext
          cases htext
      · rw [htexts]
        refine ⟨?_, ?_⟩
        · intro text htext
          rw [List.mem_singleton.mp htext]
          exact hselect
        · intro text htext
          rw [List.mem_singleton.mp htext]
          exact hinsert
    · intro pool userpass text htext
      rw [checkLogPage_texts pool userpass user password text htext]
      exact hselect

/-- With the user name `' or '1'='1` the text looks up every user. -/
theorem injected_select :
    cStr (selectText (bytes "' or '1'='1")) =
      bytes "select passwd from user where username = '' or '1'='1'" ∧
    ¬ StatementsFaithful (bytes "' or '1'='1") (bytes "x") := by
  refine ⟨by decide +kernel, ?_⟩
  rintro ⟨-, hlog⟩
  have hselect := hlog ⟨fun _ => none, fun _ => false⟩ [] _ (List.mem_singleton_self _)
  have hclean := (isSelect_iff _).mp hselect
  revert hclean
  decide

end Gxh.TinyWebserver
