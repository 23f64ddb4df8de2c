import Mathlib.Data.List.TakeWhile
import Mathlib.Data.Nat.Digits.Defs
import Gxh.HttpParser.Url
import Gxh.Lib.Bytes
import Gxh.Lib.Decimal

/-!
# `Uri`

`Uri::Create`, the getters and `Uri::toString` of `uri.cc`. The components are those of
`http_parser_parse_url`; `std::stoi` of the port may throw.
-/

namespace Gxh

open HttpParser

/-! ## Numbers -/

/-- What `std::stoi` throws. -/
inductive StoiError
  | invalid_argument
  | out_of_range
  deriving DecidableEq, Repr

def isspace (c : UInt8) : Bool := c = ' ' || (9 ≤ c && c ≤ 13)

/-- The number behind `v` with more digits. -/
def moreDigits (v : Nat) (digits : List UInt8) : Nat :=
  digits.foldl (fun v c => v * 10 + (c - '0').toNat) v

/-- `std::stoi` in base 10: white space, a sign, and as many digits as there are. -/
def stoi (str : List UInt8) : Except StoiError Int :=
  let number := str.dropWhile isspace
  let negative : Bool := number.head? = some ('-' : UInt8)
  let positive : Bool := number.head? = some ('+' : UInt8)
  let digits := (if negative || positive then number.tail else number).takeWhile isNum
  if digits = [] then .error .invalid_argument
  else
    let n : Int := if negative then -(moreDigits 0 digits : Int) else moreDigits 0 digits
    if n < -2 ^ 31 ∨ 2 ^ 31 ≤ n then .error .out_of_range else .ok n

/-- `std::to_string` of an `int`. -/
def to_string : Int → List UInt8
  | .ofNat n => decimal n
  | .negSucc n => ('-' : UInt8) :: decimal (n + 1)

/-! ## `Uri` -/

/-- `Uri`. -/
structure Uri where
  scheme : List UInt8 := []
  userinfo : List UInt8 := []
  host : List UInt8 := []
  path : List UInt8 := []
  query : List UInt8 := []
  fragment : List UInt8 := []
  port : Int := 0
  deriving DecidableEq, Repr

namespace Uri

/-- The port that `Create` sets where the text has none. -/
def portOf (scheme : List UInt8) : Int :=
  if scheme = bytes "http" ∨ scheme = bytes "ws" then 80
  else if scheme = bytes "https" then 443
  else 0

/-- `Create`, from what `http_parser_parse_url` has filled on. -/
def ofUrl (parser : Url) (urlstr : List UInt8) : Except StoiError (Option Uri) :=
  let component (f : UrlField) : List UInt8 := (parser.text f urlstr).getD []
  let port : Except StoiError Int :=
    match parser.text .UF_PORT urlstr with
    | some digits => stoi digits
    | none => .ok (portOf (component .UF_SCHEMA))
  port.map fun port => some
    { scheme := component .UF_SCHEMA
      userinfo := component .UF_USERINFO
      host := component .UF_HOST
      path := component .UF_PATH
      query := component .UF_QUERY
      fragment := component .UF_FRAGMENT
      port := port }

/-- `Uri::Create`: `none` is a null pointer. -/
def create (urlstr : List UInt8) : Except StoiError (Option Uri) :=
  match parseUrl urlstr false with
  | none => .ok none
  | some parser => ofUrl parser urlstr

variable (u : Uri)

def getPort : Int :=
  if u.port ≠ 0 then u.port
  else if u.scheme = bytes "http" ∨ u.scheme = bytes "ws" then 80
  else if u.scheme = bytes "https" ∨ u.scheme = bytes "wss" then 443
  else u.port

def getPath : List UInt8 := if u.path = [] then bytes "/" else u.path

theorem getPath_ne_nil : u.getPath ≠ [] := by
  unfold Uri.getPath
  split
  · decide
  · assumption

def isDefaultPort : Bool :=
  if u.scheme = bytes "http" ∨ u.scheme = bytes "ws" then u.port = 80
  else if u.scheme = bytes "https" then u.port = 443
  else false

theorem portOf_of_default (h : u.isDefaultPort = true) : portOf u.scheme = u.port := by
  unfold isDefaultPort at h
  unfold portOf
  split at h
  · rename_i hhttp
    rw [if_pos hhttp, of_decide_eq_true h]
  · rename_i hhttp
    split at h
    · rename_i hhttps
      rw [if_neg hhttp, if_pos hhttps, of_decide_eq_true h]
    · cases h

/-- `Uri::toString`. -/
def toString : List UInt8 :=
  u.scheme ++ bytes "://" ++ u.userinfo ++ (if u.userinfo = [] then [] else bytes "@") ++ u.host ++
    (if u.isDefaultPort then [] else bytes ":" ++ to_string u.port) ++ u.getPath ++
    (if u.query = [] then [] else bytes "?") ++ u.query ++
    (if u.fragment = [] then [] else bytes "#") ++ u.fragment

end Uri

/-! ## Ports as digits -/

theorem le_moreDigits (v : Nat) (digits : List UInt8) : v ≤ moreDigits v digits := by
  induction digits generalizing v with
  | nil => exact Nat.le_refl v
  | cons c rest ih =>
      have hstep := ih (v * 10 + (c - '0').toNat)
      show v ≤ moreDigits (v * 10 + (c - '0').toNat) rest
      omega

theorem moreDigits_lt {digits : List UInt8} (h : ∀ c ∈ digits, isNum c = true) (v : Nat) :
    moreDigits v digits < (v + 1) * 10 ^ digits.length := by
  have hdigit : ∀ c : UInt8, isNum c = true → (c - '0').toNat < 10 :=
    forall_byte (by decide +kernel)
  induction digits generalizing v with
  | nil => simp [moreDigits]
  | cons c rest ih =>
      have hc := hdigit c (h c List.mem_cons_self)
      have hrest := ih (fun b hb => h b (List.mem_cons_of_mem _ hb)) (v * 10 + (c - '0').toNat)
      show moreDigits (v * 10 + (c - '0').toNat) rest < _
      calc moreDigits (v * 10 + (c - '0').toNat) rest
          < (v * 10 + (c - '0').toNat + 1) * 10 ^ rest.length := hrest
        _ ≤ ((v + 1) * 10) * 10 ^ rest.length := Nat.mul_le_mul_right _ (by omega)
        _ = (v + 1) * 10 ^ (c :: rest).length := by
            rw [List.length_cons, Nat.pow_succ, Nat.mul_assoc, Nat.mul_comm 10]

theorem moreDigits_append (v : Nat) (x y : List UInt8) :
    moreDigits v (x ++ y) = moreDigits (moreDigits v x) y := List.foldl_append

theorem digit_isNum : ∀ d < 10, isNum (digit d) = true ∧ (digit d - '0').toNat = d := by decide

theorem moreDigits_decimal (n : Nat) : moreDigits 0 (decimal n) = n := by
  induction n using decimal_induction with
  | one n h =>
      rw [decimal_of_lt h]
      show 0 * 10 + (digit n - '0').toNat = n
      rw [(digit_isNum n h).2]
      omega
  | more n h ih =>
      have hmod : n % 10 < 10 := Nat.mod_lt _ (by decide)
      rw [decimal_of_le h, moreDigits_append, ih]
      show n / 10 * 10 + (digit (n % 10) - '0').toNat = n
      rw [(digit_isNum _ hmod).2]
      omega

theorem isNum_of_mem_decimal {n : Nat} : ∀ c ∈ decimal n, isNum c = true := by
  intro c hc
  obtain ⟨d, hd, rfl⟩ := digit_of_mem_decimal hc
  exact (digit_isNum d hd).1

/-- Leading zeros apart, a number has no fewer digits. -/
theorem length_decimal_moreDigits {digits : List UInt8} (hne : digits ≠ [])
    (h : ∀ c ∈ digits, isNum c = true) :
    (decimal (moreDigits 0 digits)).length ≤ digits.length := by
  have hlt := moreDigits_lt h 0
  rw [Nat.zero_add, Nat.one_mul] at hlt
  rw [decimal, List.length_map]
  exact Nat.toDigits_length 10 _ _ (List.length_pos_of_ne_nil hne) hlt

theorem portLoop_eq {v : Nat} (hv : v ≤ 0xffff) (digits : List UInt8) :
    portLoop v digits =
      if 0xffff < moreDigits v digits then none else some (moreDigits v digits) := by
  induction digits generalizing v with
  | nil => exact (if_neg (Nat.not_lt.mpr hv)).symm
  | cons c rest ih =>
      show (if 0xffff < v * 10 + (c - '0').toNat then none else portLoop _ rest) =
        if 0xffff < moreDigits (v * 10 + (c - '0').toNat) rest then _ else _
      by_cases hbig : 0xffff < v * 10 + (c - '0').toNat
      · have hmore := le_moreDigits (v * 10 + (c - '0').toNat) rest
        rw [if_pos hbig, if_pos (by omega)]
      · rw [if_neg hbig, ih (Nat.not_lt.mp hbig)]
        rfl

theorem stoi_digits {digits : List UInt8} (hne : digits ≠ []) (h : ∀ c ∈ digits, isNum c = true)
    (hsize : moreDigits 0 digits ≤ 0xffff) : stoi digits = .ok (moreDigits 0 digits) := by
  have hplain : ∀ c : UInt8, isNum c = true → isspace c = false ∧ c ≠ '-' ∧ c ≠ '+' :=
    forall_byte (by decide +kernel)
  cases digits with
  | nil => exact absurd rfl hne
  | cons c rest =>
      obtain ⟨hspace, hminus, hplus⟩ := hplain c (h c List.mem_cons_self)
      have hdrop : (c :: rest).dropWhile isspace = c :: rest := by simp [hspace]
      have htake : (c :: rest).takeWhile isNum = c :: rest :=
        List.takeWhile_eq_self_iff.mpr h
      unfold stoi
      simp only [hdrop, List.head?_cons, Option.some.injEq, decide_eq_false hminus,
        decide_eq_false hplus, Bool.or_self, Bool.false_eq_true, if_false, htake, if_neg hne]
      rw [if_neg (by omega)]

end Gxh
