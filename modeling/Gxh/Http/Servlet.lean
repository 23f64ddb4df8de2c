import Gxh.Http.Message
import Gxh.Lib.Registry
import Mathlib.Data.List.Induction
import Mathlib.Logic.Function.Basic

/-!
# Servlet routing

`ServletDispatch`: a map of the servlets for one uri each, a list of those for patterns, and a
default. Adding a pattern that is in the list drops its entry and puts the new one at the end;
`getMatchedServlet` asks the map, then the list from the front, then the default.

The map and the list are registries of the calls about them, so what is found is said in terms of
the calls that stand. `fnmatch` is any predicate on the two strings it is called with.
-/

namespace Gxh.Http

open Registry

/-- What is registered: `get` gives the servlet, of any type `S`. -/
structure IServletCreator (S : Type) where
  get : S
  deriving DecidableEq, Repr

variable {S : Type}

def HoldServletCreator (slt : S) : IServletCreator S := { get := slt }

structure ServletDispatch (S : Type) where
  datas : List UInt8 → Option (IServletCreator S)
  globs : List (List UInt8 × IServletCreator S)
  default : S

/-- The constructor, with the `NotFoundServlet` it makes. -/
def ServletDispatch.new (notFound : S) : ServletDispatch S :=
  { datas := fun _ => none, globs := [], default := notFound }

namespace ServletDispatch

variable (d : ServletDispatch S) (uri : List UInt8)

def addServletCreator (creator : IServletCreator S) : ServletDispatch S :=
  { d with datas := Function.update d.datas uri (some creator) }

def addServlet (slt : S) : ServletDispatch S :=
  { d with datas := Function.update d.datas uri (some (HoldServletCreator slt)) }

/-- The loop that erases the first entry of the pattern. -/
def eraseGlob (globs : List (List UInt8 × IServletCreator S)) (uri : List UInt8) :
    List (List UInt8 × IServletCreator S) :=
  globs.eraseP fun e => e.1 = uri

def addGlobServletCreator (creator : IServletCreator S) : ServletDispatch S :=
  { d with globs := eraseGlob d.globs uri ++ [(uri, creator)] }

def addGlobServlet (slt : S) : ServletDispatch S :=
  { d with globs := eraseGlob d.globs uri ++ [(uri, HoldServletCreator slt)] }

def delServlet : ServletDispatch S :=
  { d with datas := Function.update d.datas uri none }

def delGlobServlet : ServletDispatch S :=
  { d with globs := eraseGlob d.globs uri }

def setDefault (v : S) : ServletDispatch S := { d with default := v }

/-- `none` is `nullptr`. -/
def getServlet : Option S := (d.datas uri).map (·.get)

def getGlobServlet : Option S := (d.globs.find? fun e => e.1 = uri).map (·.2.get)

/-- `fnmatch pattern uri` says that the call gives 0. -/
def getMatchedServlet (fnmatch : List UInt8 → List UInt8 → Bool) : S :=
  match d.datas uri with
  | some creator => creator.get
  | none =>
      match d.globs.find? fun e => fnmatch (cStr e.1) (cStr uri) with
      | some e => e.2.get
      | none => d.default

end ServletDispatch

/-- The calls that change a dispatcher. The overloads for a callback make a `FunctionServlet`
of it. -/
inductive DispatchCall (S : Type)
  | addServlet (uri : List UInt8) (slt : S)
  | addServletCreator (uri : List UInt8) (creator : IServletCreator S)
  | addGlobServlet (uri : List UInt8) (slt : S)
  | addGlobServletCreator (uri : List UInt8) (creator : IServletCreator S)
  | delServlet (uri : List UInt8)
  | delGlobServlet (uri : List UInt8)
  | setDefault (v : S)
  deriving DecidableEq, Repr

namespace DispatchCall

def run (d : ServletDispatch S) : DispatchCall S → ServletDispatch S
  | addServlet uri slt => d.addServlet uri slt
  | addServletCreator uri creator => d.addServletCreator uri creator
  | addGlobServlet uri slt => d.addGlobServlet uri slt
  | addGlobServletCreator uri creator => d.addGlobServletCreator uri creator
  | delServlet uri => d.delServlet uri
  | delGlobServlet uri => d.delGlobServlet uri
  | setDefault v => d.setDefault v

/-- What the call does to the servlets for one uri. -/
def dataWrite : DispatchCall S → Option (Write (List UInt8) (IServletCreator S))
  | addServlet uri slt => some (.put uri (HoldServletCreator slt))
  | addServletCreator uri creator => some (.put uri creator)
  | delServlet uri => some (.del uri)
  | _ => none

/-- What the call does to the patterns. -/
def globWrite : DispatchCall S → Option (Write (List UInt8) (IServletCreator S))
  | addGlobServlet uri slt => some (.put uri (HoldServletCreator slt))
  | addGlobServletCreator uri creator => some (.put uri creator)
  | delGlobServlet uri => some (.del uri)
  | _ => none

def newDefault : DispatchCall S → Option S
  | setDefault v => some v
  | _ => none

end DispatchCall

/-- The calls have been made on a new dispatcher, in this order. -/
def dispatchAfter (notFound : S) (calls : List (DispatchCall S)) : ServletDispatch S :=
  calls.foldl DispatchCall.run (.new notFound)

/-- The servlet of the last `setDefault`. -/
def currentDefault (notFound : S) (calls : List (DispatchCall S)) : S :=
  (calls.filterMap DispatchCall.newDefault).getLastD notFound

variable {calls : List (DispatchCall S)} {notFound : S} {d : ServletDispatch S}

/-! ## The dispatcher after any calls -/

/-- The map holds the servlets that stand, the list has the patterns that stand in the order in
which they were registered, and the default is the last that was set. -/
structure ServletDispatch.Registered (d : ServletDispatch S) (notFound : S)
    (calls : List (DispatchCall S)) : Prop where
  datas : Registry.Holds (calls.filterMap DispatchCall.dataWrite) d.datas
  globs : Registry.Tracks (calls.filterMap DispatchCall.globWrite) d.globs
  default : d.default = currentDefault notFound calls

theorem ServletDispatch.registered_new : (ServletDispatch.new notFound).Registered notFound [] :=
  ⟨holds_nil, tracks_nil, rfl⟩

theorem holds_update_some {ws : List (Write (List UInt8) (IServletCreator S))}
    {m : List UInt8 → Option (IServletCreator S)} (h : Registry.Holds ws m) (uri : List UInt8)
    (creator : IServletCreator S) :
    Registry.Holds (ws ++ [.put uri creator]) (Function.update m uri (some creator)) := by
  refine h.concat ?_ ?_
  · intro v
    show Function.update m uri (some creator) uri = some v ↔ Write.put uri creator = .put uri v
    rw [Function.update_self, Option.some_inj, Write.put.injEq]
    exact (and_iff_right rfl).symm
  · intro k hk
    exact Function.update_of_ne hk _ _

theorem holds_update_none {ws : List (Write (List UInt8) (IServletCreator S))}
    {m : List UInt8 → Option (IServletCreator S)} (h : Registry.Holds ws m) (uri : List UInt8) :
    Registry.Holds (ws ++ [.del uri]) (Function.update m uri none) := by
  refine h.concat ?_ ?_
  · intro v
    show Function.update m uri none uri = some v ↔ Write.del uri = .put uri v
    rw [Function.update_self]
    exact iff_of_false nofun nofun
  · intro k hk
    exact Function.update_of_ne hk _ _

/-- One more call keeps it: each writes to one of the three. -/
theorem ServletDispatch.Registered.run (h : d.Registered notFound calls) (call : DispatchCall S) :
    (call.run d).Registered notFound (calls ++ [call]) := by
  have hdefault : call.newDefault = none →
      d.default = currentDefault notFound (calls ++ [call]) := by
    intro hnone
    rw [h.default, currentDefault, currentDefault, List.filterMap_append,
      List.filterMap_cons_none hnone, List.filterMap_nil, List.append_nil]
  constructor
  · -- the servlets for one uri
    rw [List.filterMap_append]
    cases call with
    | addServlet uri slt => exact holds_update_some h.datas uri _
    | addServletCreator uri creator => exact holds_update_some h.datas uri creator
    | delServlet uri => exact holds_update_none h.datas uri
    | addGlobServlet _ _ => exact (List.append_nil _).symm ▸ h.datas
    | addGlobServletCreator _ _ => exact (List.append_nil _).symm ▸ h.datas
    | delGlobServlet _ => exact (List.append_nil _).symm ▸ h.datas
    | setDefault _ => exact (List.append_nil _).symm ▸ h.datas
  · -- the patterns
    rw [List.filterMap_append]
    cases call with
    | addGlobServlet uri slt => exact h.globs.put uri _
    | addGlobServletCreator uri creator => exact h.globs.put uri creator
    | delGlobServlet uri => exact h.globs.del uri
    | addServlet _ _ => exact (List.append_nil _).symm ▸ h.globs
    | addServletCreator _ _ => exact (List.append_nil _).symm ▸ h.globs
    | delServlet _ => exact (List.append_nil _).symm ▸ h.globs
    | setDefault _ => exact (List.append_nil _).symm ▸ h.globs
  · -- the default
    cases call with
    | setDefault v =>
        show v = currentDefault notFound (calls ++ [.setDefault v])
        rw [currentDefault, List.filterMap_append]
        exact List.getLastD_concat.symm
    | addServlet _ _ => exact hdefault rfl
    | addServletCreator _ _ => exact hdefault rfl
    | addGlobServlet _ _ => exact hdefault rfl
    | addGlobServletCreator _ _ => exact hdefault rfl
    | delServlet _ => exact hdefault rfl
    | delGlobServlet _ => exact hdefault rfl

theorem registered_after (notFound : S) (calls : List (DispatchCall S)) :
    (dispatchAfter notFound calls).Registered notFound calls := by
  induction calls using List.reverseRecOn with
  | nil => exact ServletDispatch.registered_new
  | append_singleton calls call ih =>
      have hrun := ih.run call
      rwa [dispatchAfter, List.foldl_concat]

/-! ## What is found -/

namespace ServletDispatch.Registered

variable {uri pattern : List UInt8} {creator : IServletCreator S} {i : Nat}
  {fnmatch : List UInt8 → List UInt8 → Bool}

theorem getServlet_of_standing (h : d.Registered notFound calls)
    (hstand : Standing (calls.filterMap DispatchCall.dataWrite) i uri creator) :
    d.getServlet uri = some creator.get := by
  have hdata : d.datas uri = some creator := (h.datas uri creator).mpr ⟨i, hstand⟩
  rw [getServlet, hdata]
  rfl

theorem getGlobServlet_of_standing (h : d.Registered notFound calls)
    (hstand : Standing (calls.filterMap DispatchCall.globWrite) i uri creator) :
    d.getGlobServlet uri = some creator.get := by
  have hfind := h.globs.find_of_oldest (p := fun k => decide (k = uri)) hstand
    (decide_eq_true rfl) (by
      intro j k v hj hk
      cases of_decide_eq_true hk
      exact Nat.le_of_eq (hstand.unique hj).1)
  rw [getGlobServlet, hfind]
  rfl

theorem matched_of_data (h : d.Registered notFound calls)
    (hstand : Standing (calls.filterMap DispatchCall.dataWrite) i uri creator) :
    d.getMatchedServlet uri fnmatch = creator.get := by
  have hdata : d.datas uri = some creator := (h.datas uri creator).mpr ⟨i, hstand⟩
  rw [getMatchedServlet, hdata]

variable (hnone : ∀ i creator, ¬Standing (calls.filterMap DispatchCall.dataWrite) i uri creator)

include hnone

theorem matched_of_glob (h : d.Registered notFound calls)
    (hstand : Standing (calls.filterMap DispatchCall.globWrite) i pattern creator)
    (hmatch : fnmatch (cStr pattern) (cStr uri) = true)
    (holdest : ∀ j pattern' creator',
      Standing (calls.filterMap DispatchCall.globWrite) j pattern' creator' →
      fnmatch (cStr pattern') (cStr uri) = true → i ≤ j) :
    d.getMatchedServlet uri fnmatch = creator.get := by
  rw [getMatchedServlet, h.datas.eq_none hnone, h.globs.find_of_oldest hstand hmatch holdest]

theorem matched_of_none (h : d.Registered notFound calls)
    (hglob : ∀ i pattern creator,
      Standing (calls.filterMap DispatchCall.globWrite) i pattern creator →
      fnmatch (cStr pattern) (cStr uri) = false) :
    d.getMatchedServlet uri fnmatch = currentDefault notFound calls := by
  rw [getMatchedServlet, h.datas.eq_none hnone, h.globs.find_of_none hglob]
  exact h.default

end ServletDispatch.Registered

/-- Servlet routing: the patterns are distinct, and `getMatchedServlet` gives the servlet that
stands for the uri itself, else the one whose pattern matches and has been registered the longest
ago, else the current default. -/
theorem getMatchedServlet_spec (fnmatch : List UInt8 → List UInt8 → Bool) (notFound : S)
    (calls : List (DispatchCall S)) (uri : List UInt8) :
    ((dispatchAfter notFound calls).globs.map Prod.fst).Nodup ∧
    (∀ i creator, Standing (calls.filterMap DispatchCall.dataWrite) i uri creator →
      (dispatchAfter notFound calls).getMatchedServlet uri fnmatch = creator.get) ∧
    ((∀ i creator, ¬Standing (calls.filterMap DispatchCall.dataWrite) i uri creator) →
      (∀ i pattern creator,
        Standing (calls.filterMap DispatchCall.globWrite) i pattern creator →
        fnmatch (cStr pattern) (cStr uri) = true →
        (∀ j pattern' creator',
          Standing (calls.filterMap DispatchCall.globWrite) j pattern' creator' →
          fnmatch (cStr pattern') (cStr uri) = true → i ≤ j) →
        (dispatchAfter notFound calls).getMatchedServlet uri fnmatch = creator.get) ∧
      ((∀ i pattern creator,
          Standing (calls.filterMap DispatchCall.globWrite) i pattern creator →
          fnmatch (cStr pattern) (cStr uri) = false) →
        (dispatchAfter notFound calls).getMatchedServlet uri fnmatch =
          currentDefault notFound calls)) := by
  have h := registered_after notFound calls
  refine ⟨h.globs.nodup, fun i creator hstand => h.matched_of_data hstand, fun hnone => ⟨?_, ?_⟩⟩
  · intro i pattern creator hstand hmatch holdest
    exact h.matched_of_glob hnone hstand hmatch holdest
  · intro hglob
    exact h.matched_of_none hnone hglob

end Gxh.Http
