import Gxh.Http.Message
import Gxh.Lib.Bytes

/-!
# Configuration keys

`Config::Lookup`, `ListAllMember` and `Config::LoadFromYaml` (`config.h`, `config.cc`). A YAML
document is a tree; a key is what `Scalar()` gives for it, and a node that is not a scalar carries
the text that it is printed as.

`Lookup` and the walk over the tree test names against the same hand-typed alphabet, which has
every letter, and every digit but `9`. The walk makes the test before `LoadFromYaml` puts a key
in lower case, and below a key that fails it does not look at anything.

* `listAllMember_eq` — what the walk finds, path by path;
* `config_keys` — which names and which trees are treated as documented.
-/

namespace Gxh.Config

open HttpParser (bytes)
open Http (tolower)

abbrev Str := List UInt8

/-- The characters `Lookup` and `ListAllMember` look for. -/
def alphabet : Str := bytes "abcdefghikjlmnopqrstuvwxyz._012345678"

/-- `find_first_not_of(alphabet) == npos`. -/
def isClean (name : Str) : Bool := name.all (alphabet.contains ·)

/-- The documented characters of a name, `[0-9a-z_.]`. -/
def isNameChar (c : UInt8) : Bool :=
  '0' ≤ c && c ≤ '9' || 'a' ≤ c && c ≤ 'z' || c == '_' || c == '.'

/-- The variables by their names. -/
abbrev Datas (V : Type) := Str → Option V

/-- `Lookup<T>(name, default_value, description)`: the answer and the table, or
`std::invalid_argument`. `hasType` is the dynamic cast to `ConfigVar<T>`, and `fresh` the variable
made of the default value. -/
def Lookup {V : Type} (datas : Datas V) (hasType : V → Bool) (fresh : V) (name : Str) :
    Except Str (Option V × Datas V) :=
  match datas name with
  | some v => .ok (if hasType v then some v else none, datas)
  | none =>
      if isClean name then .ok (some fresh, Function.update datas name (some fresh))
      else .error name

mutual

inductive Yaml
  | scalar (text : Str)
  /-- null or a sequence -/
  | other (printed : Str)
  | map (printed : Str) (entries : Entries)

inductive Entries
  | nil
  | cons (key : Str) (value : Yaml) (rest : Entries)

end

/-- The argument of `fromString`. -/
def Yaml.text : Yaml → Str
  | .scalar text => text
  | .other printed => printed
  | .map printed _ => printed

/-- The keys from the root of the document down to a node. -/
abbrev Path := List Str

/-- `prefix.empty() ? key : prefix + "." + key`. -/
def join (pre key : Str) : Str := if pre = [] then key else pre ++ ('.' : UInt8) :: key

mutual

/-- `ListAllMember`: the key and the text of each node, and the path to it, which the source does
not keep. -/
def listAllMember (pre : Str) (path : Path) : Yaml → List (Path × Str × Str)
  | .scalar text => if isClean pre then [(path, pre, text)] else []
  | .other printed => if isClean pre then [(path, pre, printed)] else []
  | .map printed entries =>
      if isClean pre then (path, pre, printed) :: listEntries pre path entries else []

def listEntries (pre : Str) (path : Path) : Entries → List (Path × Str × Str)
  | .nil => []
  | .cons key value rest =>
      listAllMember (join pre key) (path ++ [key]) value ++ listEntries pre path rest

end

/-- A call of `fromString`. -/
structure FromString where
  path : Path
  name : Str
  text : Str
  deriving DecidableEq, Repr

/-- `LoadFromYaml`: the calls it makes. -/
def loadFromYaml {V : Type} (datas : Datas V) (root : Yaml) : List FromString :=
  (listAllMember [] [] root).filterMap fun (path, key, text) =>
    if key = [] then none
    else if (datas (key.map tolower)).isSome then some ⟨path, key.map tolower, text⟩
    else none

/-! ## What is documented -/

mutual

/-- The nodes of the tree in pre-order, each with the path to it and its text. -/
def Yaml.nodes : Yaml → List (Path × Str)
  | .scalar text => [([], text)]
  | .other printed => [([], printed)]
  | .map printed entries => ([], printed) :: entries.nodes

def Entries.nodes : Entries → List (Path × Str)
  | .nil => []
  | .cons key value rest =>
      (value.nodes.map fun (path, text) => (key :: path, text)) ++ rest.nodes

end

/-- The dotted key of a path. -/
def dotted (path : Path) : Str := List.intercalate [('.' : UInt8)] path

/-- The call for a node, if the dotted key of its path names a variable in lower case. -/
def documentedCall {V : Type} (datas : Datas V) (node : Path × Str) : Option FromString :=
  let name := (dotted node.1).map tolower
  if node.1 ≠ [] ∧ (datas name).isSome then some ⟨node.1, name, node.2⟩ else none

/-- One call for each such path. -/
def documentedCalls {V : Type} (datas : Datas V) (root : Yaml) : List FromString :=
  root.nodes.filterMap (documentedCall datas)

/-! ## What the walk finds -/

/-- The key of the walk for a path below a prefix. -/
def walkKey (pre : Str) (path : Path) : Str := path.foldl join pre

theorem isClean_iff {name : Str} : isClean name = true ↔ ∀ c ∈ name, c ∈ alphabet := by
  unfold isClean
  rw [List.all_eq_true]
  exact forall₂_congr fun _ _ => List.contains_iff_mem

theorem isClean_of_join {pre key : Str} (h : isClean (join pre key) = true) :
    isClean pre = true := by
  rw [isClean_iff] at h ⊢
  unfold join at h
  split at h
  · rename_i hnil
    rw [hnil]
    nofun
  · intro c hc
    exact h c (List.mem_append_left _ hc)

/-- The test on a key implies those made on the way. -/
theorem isClean_of_walkKey {pre : Str} {path : Path} (h : isClean (walkKey pre path) = true) :
    isClean pre = true := by
  induction path generalizing pre with
  | nil => exact h
  | cons key path ih => exact isClean_of_join (ih h)

/-- What the walk reports for one node. -/
def found (pre : Str) (path : Path) (node : Path × Str) : Option (Path × Str × Str) :=
  if isClean (walkKey pre node.1) then some (path ++ node.1, walkKey pre node.1, node.2) else none

theorem found_cons (pre : Str) (path : Path) (key : Str) (node : Path × Str) :
    found pre path (key :: node.1, node.2) = found (join pre key) (path ++ [key]) node := by
  unfold found
  rw [List.append_assoc]
  rfl

theorem found_of_not_clean {pre : Str} (h : ¬isClean pre = true) (path : Path)
    (l : List (Path × Str)) : l.filterMap (found pre path) = [] := by
  rw [List.filterMap_eq_nil_iff]
  rintro ⟨below, text⟩ -
  exact if_neg fun hclean => h (isClean_of_walkKey hclean)

mutual

theorem listAllMember_eq (pre : Str) (path : Path) : ∀ node : Yaml,
    listAllMember pre path node = node.nodes.filterMap (found pre path)
  | .scalar text => by
      unfold listAllMember Yaml.nodes
      by_cases hclean : isClean pre = true
      · simp [found, walkKey, hclean]
      · simp [found, walkKey, hclean]
  | .other printed => by
      unfold listAllMember Yaml.nodes
      by_cases hclean : isClean pre = true
      · simp [found, walkKey, hclean]
      · simp [found, walkKey, hclean]
  | .map printed entries => by
      unfold listAllMember
      split
      · rename_i hclean
        have hroot : found pre path ([], printed) = some (path, pre, printed) := by
          simp [found, walkKey, hclean]
        rw [Yaml.nodes, List.filterMap_cons_some hroot, listEntries_eq pre path entries]
      · rename_i hclean
        exact (found_of_not_clean hclean path _).symm

theorem listEntries_eq (pre : Str) (path : Path) : ∀ entries : Entries,
    listEntries pre path entries = entries.nodes.filterMap (found pre path)
  | .nil => rfl
  | .cons key value rest => by
      unfold listEntries Entries.nodes
      rw [List.filterMap_append, List.filterMap_map, listAllMember_eq _ _ value,
        listEntries_eq pre path rest]
      congr 1
      exact List.filterMap_congr fun node _ => (found_cons pre path key node).symm

end

/-- The call of the code for a node. -/
def call {V : Type} (datas : Datas V) (node : Path × Str) : Option FromString :=
  let key := walkKey [] node.1
  if isClean key ∧ key ≠ [] ∧ (datas (key.map tolower)).isSome then
    some ⟨node.1, key.map tolower, node.2⟩
  else none

variable {V : Type} {datas : Datas V}

theorem loadFromYaml_eq (datas : Datas V) (root : Yaml) :
    loadFromYaml datas root = root.nodes.filterMap (call datas) := by
  unfold loadFromYaml
  rw [listAllMember_eq, List.filterMap_filterMap]
  refine List.filterMap_congr fun node _ => ?_
  unfold found call
  by_cases hclean : isClean (walkKey [] node.1) = true
  · rw [if_pos hclean]
    show (if walkKey [] node.1 = [] then none else _) = _
    by_cases hnil : walkKey [] node.1 = []
    · rw [if_pos hnil, if_neg fun h => h.2.1 hnil]
    · rw [if_neg hnil]
      exact if_congr (by simp [hclean, hnil]) rfl rfl
  · rw [if_neg hclean, if_neg fun h => hclean h.1]
    rfl

/-! ## Keys and dotted keys -/

theorem dotted_cons (key : Str) (path : Path) :
    dotted (key :: path) = key ++ path.flatMap fun k => ('.' : UInt8) :: k := by
  unfold dotted
  induction path generalizing key with
  | nil => simp [List.intercalate]
  | cons k path ih =>
      rw [List.flatMap_cons, ← List.append_assoc, List.intercalate_cons_cons, ih k]
      simp

theorem walkKey_of_ne_nil {pre : Str} (hpre : pre ≠ []) (path : Path) :
    walkKey pre path = pre ++ path.flatMap fun k => ('.' : UInt8) :: k := by
  induction path generalizing pre with
  | nil => exact (List.append_nil pre).symm
  | cons k path ih =>
      have hjoin : join pre k = pre ++ ('.' : UInt8) :: k := if_neg hpre
      show walkKey (join pre k) path = _
      rw [hjoin, ih (by simp), List.flatMap_cons, List.append_assoc]

/-- Unless the path begins with an empty key, the key of the walk is the dotted key. -/
theorem walkKey_eq_dotted {key : Str} (hkey : key ≠ []) (path : Path) :
    walkKey [] (key :: path) = dotted (key :: path) := by
  rw [dotted_cons]
  exact walkKey_of_ne_nil hkey path

/-- An empty key in front leaves no dot. -/
theorem walkKey_nil_cons (path : Path) : walkKey [] ([] :: path) = walkKey [] path := rfl

theorem length_walkKey_lt {path : Path} (h : path ≠ []) :
    (walkKey [] path).length < (path.flatMap fun k => ('.' : UInt8) :: k).length := by
  induction path with
  | nil => exact absurd rfl h
  | cons key path ih =>
      by_cases hkey : key = []
      · rw [hkey, walkKey_nil_cons]
        by_cases hpath : path = []
        · rw [hpath]
          decide
        · have hlt := ih hpath
          rw [List.flatMap_cons, List.length_append]
          omega
      · rw [walkKey_eq_dotted hkey, dotted_cons, List.flatMap_cons, List.length_append,
          List.length_append, List.length_cons]
        omega

/-- With an empty key in front the two keys differ. -/
theorem walkKey_ne_dotted {path : Path} (h : walkKey [] ([] :: path) ≠ []) :
    (walkKey [] ([] :: path)).map tolower ≠ (dotted ([] :: path)).map tolower := by
  intro heq
  have hlen := congrArg List.length heq
  rw [List.length_map, List.length_map, dotted_cons, walkKey_nil_cons, List.nil_append] at hlen
  have hpath : path ≠ [] := by
    rintro rfl
    exact h rfl
  have hlt := length_walkKey_lt hpath
  omega

/-- If the path names a variable, it is spelled in the characters of the code and does not begin
with an empty key; and if it begins with one, what is left without it names no variable. -/
structure Spelled (datas : Datas V) (path : Path) : Prop where
  clean : (datas ((dotted path).map tolower)).isSome = true → isClean (dotted path) = true ∧
    path.head? ≠ some []
  led : path.head? = some [] → isClean (walkKey [] path) = true → walkKey [] path ≠ [] →
    (datas ((walkKey [] path).map tolower)).isSome = false

/-- Two conditional values that would differ agree only where there is none. -/
theorem ite_some_eq_of_ne {α : Type} {a b : α} {P Q : Prop} [Decidable P] [Decidable Q]
    (hne : P → a ≠ b) :
    (if P then some a else none) = (if Q then some b else none) ↔ ¬P ∧ ¬Q := by
  by_cases hP : P
  · rw [if_pos hP]
    refine iff_of_false (fun heq => ?_) fun h => h.1 hP
    split at heq
    · exact hne hP (Option.some.inj heq)
    · cases heq
  · rw [if_neg hP]
    by_cases hQ : Q
    · rw [if_pos hQ]
      exact iff_of_false nofun fun h => h.2 hQ
    · rw [if_neg hQ]
      exact iff_of_true rfl ⟨hP, hQ⟩

theorem ite_some_eq_ite {α : Type} {a : α} {P Q : Prop} [Decidable P] [Decidable Q] :
    (if P then some a else none) = (if Q then some a else none) ↔ (P ↔ Q) := by
  by_cases hP : P
  · by_cases hQ : Q
    · rw [if_pos hP, if_pos hQ]
      exact iff_of_true rfl (iff_of_true hP hQ)
    · rw [if_pos hP, if_neg hQ]
      exact iff_of_false nofun fun h => hQ (h.mp hP)
  · by_cases hQ : Q
    · rw [if_neg hP, if_pos hQ]
      exact iff_of_false nofun fun h => hP (h.mpr hQ)
    · rw [if_neg hP, if_neg hQ]
      exact iff_of_true rfl (iff_of_false hP hQ)

theorem call_eq_iff {path : Path} (hpath : path ≠ []) (text : Str) :
    call datas (path, text) = documentedCall datas (path, text) ↔ Spelled datas path := by
  unfold call documentedCall
  dsimp only
  cases path with
  | nil => exact absurd rfl hpath
  | cons key path =>
      -- the walk drops empty keys at the front of a path, the dotted key keeps them
      by_cases hkey : key = []
      · -- both make a call, but not for one name
        subst hkey
        rw [ite_some_eq_of_ne fun hcode heq =>
          walkKey_ne_dotted hcode.2.1 (congrArg FromString.name heq)]
        constructor
        · rintro ⟨hcode, hdoc⟩
          refine ⟨fun hsome => absurd ⟨hpath, hsome⟩ hdoc, fun _ hclean hne => ?_⟩
          exact Bool.eq_false_iff.mpr fun hsome => hcode ⟨hclean, hne, hsome⟩
        · rintro ⟨hclean, hled⟩
          refine ⟨?_, fun h => (hclean h.2).2 rfl⟩
          rintro ⟨hspelled, hne, hsome⟩
          rw [hled rfl hspelled hne] at hsome
          cases hsome
      · have hne : dotted (key :: path) ≠ [] := by
          rw [dotted_cons]
          simp [hkey]
        have hhead : (key :: path).head? ≠ some [] := fun h => hkey (Option.some.inj h)
        rw [walkKey_eq_dotted hkey, ite_some_eq_ite]
        constructor
        · intro hiff
          exact ⟨fun hsome => ⟨(hiff.mpr ⟨hpath, hsome⟩).1, hhead⟩, fun h => absurd h hhead⟩
        · rintro ⟨hclean, -⟩
          exact ⟨fun h => ⟨hpath, h.2.2⟩, fun h => ⟨(hclean h.2).1, hne, h.2⟩⟩

/-- Where each value tells what it was made from, two selections agree only element by
element. -/
theorem filterMap_eq_iff {α β : Type} {f g : α → Option β} (source : β → α)
    (hf : ∀ a b, f a = some b → source b = a) (hg : ∀ a b, g a = some b → source b = a)
    {l : List α} : l.filterMap f = l.filterMap g ↔ ∀ a ∈ l, f a = g a := by
  have hpass : ∀ {f g : α → Option β}, (∀ a b, f a = some b → source b = a) →
      (∀ a b, g a = some b → source b = a) → l.filterMap f = l.filterMap g →
      ∀ a ∈ l, ∀ b, f a = some b → g a = some b := by
    intro f g hf hg heq a ha b hb
    have hmem : b ∈ l.filterMap g := by
      rw [← heq]
      exact List.mem_filterMap.mpr ⟨a, ha, hb⟩
    obtain ⟨a', -, hb'⟩ := List.mem_filterMap.mp hmem
    have hsame : a' = a := (hg a' b hb').symm.trans (hf a b hb)
    rw [← hsame]
    exact hb'
  constructor
  · intro heq a ha
    exact Option.ext fun b => ⟨hpass hf hg heq a ha b, hpass hg hf heq.symm a ha b⟩
  · exact fun h => List.filterMap_congr h

/-- The code makes the documented calls if and only if every path is spelled as it should be. -/
theorem loadFromYaml_iff (datas : Datas V) (root : Yaml) :
    loadFromYaml datas root = documentedCalls datas root ↔
      ∀ node ∈ root.nodes, node.1 ≠ [] → Spelled datas node.1 := by
  have hcall : ∀ node b, call datas node = some b → (b.path, b.text) = node := by
    intro node b hb
    unfold call at hb
    dsimp only at hb
    split at hb
    · cases hb
      rfl
    · cases hb
  have hdoc : ∀ node b, documentedCall datas node = some b → (b.path, b.text) = node := by
    intro node b hb
    unfold documentedCall at hb
    dsimp only at hb
    split at hb
    · cases hb
      rfl
    · cases hb
  rw [loadFromYaml_eq]
  unfold documentedCalls
  rw [filterMap_eq_iff (fun b => (b.path, b.text)) hcall hdoc]
  refine forall₂_congr fun node _ => ?_
  by_cases hroot : node.1 = []
  · refine iff_of_true ?_ fun h => absurd hroot h
    unfold call documentedCall
    rw [hroot]
    rfl
  · rw [call_eq_iff hroot node.2]
    exact ⟨fun h _ => h, fun h => h hroot⟩

/-! ## Names -/

theorem mem_alphabet_iff : ∀ c : UInt8, c ∈ alphabet ↔ isNameChar c = true ∧ c ≠ '9' :=
  forall_byte (by decide +kernel)

/-- The name is refused. -/
def Throws {V : Type} (datas : Datas V) (hasType : V → Bool) (fresh : V) (name : Str) : Prop :=
  Lookup datas hasType fresh name = .error name

theorem throws_iff {hasType : V → Bool} {fresh : V} {name : Str} (hnew : datas name = none) :
    Throws datas hasType fresh name ↔ ∃ c ∈ name, isNameChar c = false ∨ c = '9' := by
  unfold Throws Lookup
  rw [hnew]
  dsimp only
  have hbad : ¬isClean name = true ↔ ∃ c ∈ name, isNameChar c = false ∨ c = '9' := by
    rw [isClean_iff]
    simp only [mem_alphabet_iff, not_forall, not_and_or, not_not, Bool.not_eq_true, exists_prop]
  rw [← hbad]
  by_cases hclean : isClean name = true
  · rw [if_pos hclean]
    exact iff_of_false nofun fun h => h hclean
  · rw [if_neg hclean]
    exact iff_of_true rfl hclean

/-- `Lookup` refuses a new name as documented unless the name has the digit `9` and nothing that
is wrong with it; and `LoadFromYaml` makes the documented calls if and only if every path is
spelled as it should be. -/
theorem config_keys (datas : Datas V) :
    (∀ hasType fresh name, datas name = none →
      ((Throws datas hasType fresh name ↔ ∃ c ∈ name, isNameChar c = false) ↔
        (('9' : UInt8) ∉ name ∨ ∃ c ∈ name, isNameChar c = false))) ∧
    ∀ root, loadFromYaml datas root = documentedCalls datas root ↔
      ∀ node ∈ root.nodes, node.1 ≠ [] → Spelled datas node.1 := by
  refine ⟨fun hasType fresh name hnew => ?_, loadFromYaml_iff datas⟩
  rw [throws_iff hnew]
  constructor
  · rintro ⟨hdoc, -⟩
    by_cases hnine : ('9' : UInt8) ∈ name
    · exact .inr (hdoc ⟨_, hnine, .inr rfl⟩)
    · exact .inl hnine
  · intro hcond
    constructor
    · rintro ⟨c, hc, hbad | rfl⟩
      · exact ⟨c, hc, hbad⟩
      · exact hcond.resolve_left fun h => h hc
    · rintro ⟨c, hc, hbad⟩
      exact ⟨c, hc, .inl hbad⟩

/-- One variable, `server.port`. -/
def portOnly : Datas Unit := fun name => if name = bytes "server.port" then some () else none

/-- `server` or `Server`, with a port below it. -/
def serverPort (server : String) : Yaml :=
  .map [] (.cons (bytes server) (.map [] (.cons (bytes "port") (.scalar (bytes "80")) .nil)) .nil)

theorem config_keys_lower : loadFromYaml portOnly (serverPort "server") =
    documentedCalls portOnly (serverPort "server") ∧
    (Throws portOnly (fun _ => true) () (bytes "tcp.port") ↔
      ∃ c ∈ bytes "tcp.port", isNameChar c = false) := by
  refine ⟨((config_keys portOnly).2 _).mpr ?_,
    ((config_keys portOnly).1 (fun _ => true) () _ (by decide)).mpr (.inl (by decide))⟩
  intro node hnode hne
  have hcases : node = ([], []) ∨ node = ([bytes "server"], []) ∨
      node = ([bytes "server", bytes "port"], bytes "80") := by
    simpa [serverPort, Yaml.nodes, Entries.nodes] using hnode
  rcases hcases with rfl | rfl | rfl
  · exact absurd rfl hne
  · exact ⟨by decide, by decide⟩
  · exact ⟨by decide, by decide⟩

/-- A `9` in a name is refused, and a key in upper case is not looked up. -/
theorem config_keys_refused :
    (Throws portOnly (fun _ => true) () (bytes "level9") ∧
      ¬∃ c ∈ bytes "level9", isNameChar c = false) ∧
    loadFromYaml portOnly (serverPort "Server") = [] ∧
    documentedCalls portOnly (serverPort "Server") =
      [⟨[bytes "Server", bytes "port"], bytes "server.port", bytes "80"⟩] := by
  refine ⟨⟨?_, by decide⟩, by decide, by decide⟩
  exact (throws_iff (by decide)).mpr ⟨'9', by decide, .inr rfl⟩

end Gxh.Config
