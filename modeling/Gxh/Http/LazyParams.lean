import Gxh.Http.Params

/-!
# When lazy parsing cannot be observed

Parameters and cookies are each a map filled on demand (`Jar`), which every call changes by one
action while it may also change the texts they are filled from. The run of the changes alone is
what all runs with the same changes are compared to: as long as every call meets `CallOk`, each
of them shows what that run would show (`Tracks`), so that it does not matter which observers have
been called before.
-/

namespace Gxh.Http

open HttpParser OrdMap

/-! ## The two maps -/

/-- The maps that are filled on demand. -/
inductive Jar
  | params
  | cookies

/-- What `initBodyParam` would insert. -/
def HttpRequest.formEntries (src : HttpRequest) : List (List UInt8 × List UInt8) :=
  if strcasestr (src.getHeader (bytes "content-type"))
      (bytes "application/x-www-form-urlencoded") then
    parseParam '&' id src.body
  else []

namespace LazyRequest

/-- What `initQueryParam` and `initBodyParam` would, the texts being those of `src`. -/
def unparsedParams (r : LazyRequest) (src : HttpRequest) : List (List UInt8 × List UInt8) :=
  (if r.queryParsed then [] else parseParam '&' id src.query) ++
    if r.bodyParsed then [] else src.formEntries

/-- What `initCookies` would insert. -/
def unparsedCookies (r : LazyRequest) (src : HttpRequest) : List (List UInt8 × List UInt8) :=
  if r.cookiesParsed then [] else parseParam ';' StringUtil.trim (src.getHeader (bytes "cookie"))

def jar (r : LazyRequest) : Jar → LazyMap caseKey HttpRequest (List UInt8)
  | .params => ⟨r.params, r.unparsedParams⟩
  | .cookies => ⟨r.cookies, r.unparsedCookies⟩

end LazyRequest

namespace Call

/-- What a call does to a map. -/
def action : Call → Jar → LazyMap.Act (List UInt8) (List UInt8)
  | .getParam .., .params => .look
  | .hasParam _, .params => .look
  | .getCookie .., .cookies => .look
  | .hasCookie _, .cookies => .look
  | .setParam key val, .params => .set key val
  | .delParam key, .params => .erase key
  | .setCookie key val, .cookies => .set key val
  | .delCookie key, .cookies => .erase key
  | _, _ => .none

/-- What it does to the texts. -/
def onSource : Call → HttpRequest → HttpRequest
  | .setQuery v, src => { src with query := v }
  | .setBody v, src => { src with body := v }
  | .setHeader key val, src => src.setHeader key val
  | _, src => src

/-- What it returns, from what the maps show. -/
def answer (view : Jar → List UInt8 → Option (List UInt8)) : Call → Result
  | .getParam key dflt => .text ((view .params key).getD dflt)
  | .hasParam key => .found (view .params key)
  | .getCookie key dflt => .text ((view .cookies key).getD dflt)
  | .hasCookie key => .found (view .cookies key)
  | _ => .done

/-- The call that asks for a key. -/
def has : Jar → List UInt8 → Call
  | .params => .hasParam
  | .cookies => .hasCookie

theorem answer_has (view : Jar → List UInt8 → Option (List UInt8)) (j : Jar) (key : List UInt8) :
    (has j key).answer view = .found (view j key) := by
  cases j <;> rfl

/-- The call that deletes one. -/
def del : Jar → List UInt8 → Call
  | .params => .delParam
  | .cookies => .delCookie

theorem observes_iff {c : Call} : c.observes = true ↔ ∃ j, (c.action j).looks = true := by
  constructor
  · intro hobs
    cases c with
    | getParam key dflt => exact ⟨.params, rfl⟩
    | hasParam key => exact ⟨.params, rfl⟩
    | getCookie key dflt => exact ⟨.cookies, rfl⟩
    | hasCookie key => exact ⟨.cookies, rfl⟩
    | _ => cases hobs
  · rintro ⟨j, hlooks⟩
    cases c with
    | getParam key dflt => rfl
    | hasParam key => rfl
    | getCookie key dflt => rfl
    | hasCookie key => rfl
    | _ => cases j <;> cases hlooks

/-- Observers leave the texts alone, and look at a map or do nothing to it. -/
theorem onSource_of_observes {c : Call} (h : c.observes = true) (src : HttpRequest) :
    c.onSource src = src := by
  cases c with
  | getParam key dflt => rfl
  | hasParam key => rfl
  | getCookie key dflt => rfl
  | hasCookie key => rfl
  | _ => cases h

theorem action_of_observes {c : Call} (h : c.observes = true) (j : Jar) :
    c.action j = .look ∨ c.action j = .none := by
  cases c with
  | getParam key dflt => cases j; exacts [.inl rfl, .inr rfl]
  | hasParam key => cases j; exacts [.inl rfl, .inr rfl]
  | getCookie key dflt => cases j; exacts [.inr rfl, .inl rfl]
  | hasCookie key => cases j; exacts [.inr rfl, .inl rfl]
  | _ => cases h

/-- No call does something to both. -/
theorem action_or_source (c : Call) (j : Jar) :
    c.action j = .none ∨ ∀ src, c.onSource src = src := by
  cases c with
  | setQuery v => cases j <;> exact .inl rfl
  | setBody v => cases j <;> exact .inl rfl
  | setHeader key val => cases j <;> exact .inl rfl
  | _ => exact .inr fun _ => rfl

end Call

namespace LazyRequest

/-! ### The code is that -/

theorem initQueryParam_eq (r : LazyRequest) :
    r.initQueryParam =
      { r with
        params := r.params.insertAll ranks_caseKey
          (if r.queryParsed then [] else parseParam '&' id r.query)
        queryParsed := true } := by
  obtain ⟨src, params, cookies, queryParsed, bodyParsed, cookiesParsed⟩ := r
  cases queryParsed with
  | false => rfl
  | true => rfl

theorem initBodyParam_eq (r : LazyRequest) :
    r.initBodyParam =
      { r with
        params := r.params.insertAll ranks_caseKey
          (if r.bodyParsed then [] else r.formEntries)
        bodyParsed := true } := by
  obtain ⟨src, params, cookies, queryParsed, bodyParsed, cookiesParsed⟩ := r
  cases bodyParsed with
  | true => rfl
  | false =>
      unfold initBodyParam HttpRequest.formEntries
      cases hform : strcasestr (src.getHeader (bytes "content-type"))
          (bytes "application/x-www-form-urlencoded") with
      | false =>
          simp only [hform]
          rfl
      | true =>
          simp only [hform]
          rfl

/-- What comes first keeps its place: the query goes before the body. -/
theorem initParams_eq (r : LazyRequest) :
    r.initQueryParam.initBodyParam =
      { r with
        params := r.params.insertAll ranks_caseKey (r.unparsedParams r.toHttpRequest)
        queryParsed := true
        bodyParsed := true } := by
  rw [initBodyParam_eq, initQueryParam_eq]
  unfold unparsedParams
  rw [Map.insertAll_append]

theorem initCookies_eq (r : LazyRequest) :
    r.initCookies =
      { r with
        cookies := r.cookies.insertAll ranks_caseKey (r.unparsedCookies r.toHttpRequest)
        cookiesParsed := true } := by
  obtain ⟨src, params, cookies, queryParsed, bodyParsed, cookiesParsed⟩ := r
  cases cookiesParsed with
  | true => rfl
  | false =>
      unfold initCookies unparsedCookies
      by_cases hcookie : src.getHeader (bytes "cookie") = []
      · simp only [hcookie]
        rfl
      · simp only [hcookie]
        rfl

/-- The initialisations are a look at the one map, and nothing to the other. -/
theorem jar_initParams (r : LazyRequest) :
    r.initQueryParam.initBodyParam.jar .params =
        (r.jar .params).force ranks_caseKey r.toHttpRequest ∧
      r.initQueryParam.initBodyParam.jar .cookies = r.jar .cookies ∧
      r.initQueryParam.initBodyParam.toHttpRequest = r.toHttpRequest := by
  rw [initParams_eq]
  exact ⟨rfl, rfl, rfl⟩

theorem jar_initCookies (r : LazyRequest) :
    r.initCookies.jar .cookies = (r.jar .cookies).force ranks_caseKey r.toHttpRequest ∧
      r.initCookies.jar .params = r.jar .params ∧
      r.initCookies.toHttpRequest = r.toHttpRequest := by
  rw [initCookies_eq]
  exact ⟨rfl, rfl, rfl⟩

theorem call_source (r : LazyRequest) (c : Call) :
    (r.call c).2.toHttpRequest = c.onSource r.toHttpRequest := by
  cases c with
  | getParam key dflt => exact r.jar_initParams.2.2
  | hasParam key => exact r.jar_initParams.2.2
  | getCookie key dflt => exact r.jar_initCookies.2.2
  | hasCookie key => exact r.jar_initCookies.2.2
  | _ => rfl

theorem call_jar (r : LazyRequest) (c : Call) (j : Jar) :
    (r.call c).2.jar j = (r.jar j).act ranks_caseKey r.toHttpRequest (c.action j) := by
  cases c with
  | getParam key dflt =>
      cases j with
      | params => exact r.jar_initParams.1
      | cookies => exact r.jar_initParams.2.1
  | hasParam key =>
      cases j with
      | params => exact r.jar_initParams.1
      | cookies => exact r.jar_initParams.2.1
  | getCookie key dflt =>
      cases j with
      | params => exact r.jar_initCookies.2.1
      | cookies => exact r.jar_initCookies.1
  | hasCookie key =>
      cases j with
      | params => exact r.jar_initCookies.2.1
      | cookies => exact r.jar_initCookies.1
  | _ => cases j <;> rfl

/-- What the maps show. -/
def view (r : LazyRequest) (j : Jar) (key : List UInt8) : Option (List UInt8) :=
  (r.jar j).view caseInsensitiveLess r.toHttpRequest key

theorem find_initParams (r : LazyRequest) (key : List UInt8) :
    r.initQueryParam.initBodyParam.params.find caseInsensitiveLess key = r.view .params key := by
  show (r.initQueryParam.initBodyParam.jar .params).made.find _ key = _
  rw [r.jar_initParams.1, LazyMap.find_force]
  rfl

theorem find_initCookies (r : LazyRequest) (key : List UInt8) :
    r.initCookies.cookies.find caseInsensitiveLess key = r.view .cookies key := by
  show (r.initCookies.jar .cookies).made.find _ key = _
  rw [r.jar_initCookies.1, LazyMap.find_force]
  rfl

theorem call_result (r : LazyRequest) (c : Call) : (r.call c).1 = c.answer r.view := by
  cases c with
  | getParam key dflt =>
      show Result.text _ = Result.text _
      rw [← find_initParams]
      rfl
  | hasParam key =>
      show Result.found _ = Result.found _
      rw [← find_initParams]
      rfl
  | getCookie key dflt =>
      show Result.text _ = Result.text _
      rw [← find_initCookies]
      rfl
  | hasCookie key =>
      show Result.found _ = Result.found _
      rw [← find_initCookies]
      rfl
  | _ => rfl

end LazyRequest

/-! ## Sequences with and without observers -/

/-- The calls that are left, where each call is marked with whether it stays. -/
def kept (cs : List (Call × Bool)) : List Call := (cs.filter (·.2)).map (·.1)

/-- Of what all the calls returned, what these did. -/
def keptResults (cs : List (Call × Bool)) (rs : List Result) : List Result :=
  ((cs.zip rs).filter (·.1.2)).map (·.2)

/-- Only observers go. -/
def ThinsObservers (cs : List (Call × Bool)) : Prop := ∀ e ∈ cs, e.2 = false → e.1.observes = true

/-- Without some of the observers the other calls return the same. -/
def ThinningLaw (r : LazyRequest) (xs : List Call) : Prop :=
  ∀ cs : List (Call × Bool), cs.map (·.1) = xs → ThinsObservers cs →
    r.results (kept cs) = keptResults cs (r.results xs)

/-- That the parsing is lazy does not show in a run: at every point of it, the law holds for the
calls so far and any observers called next, and what has just been deleted is not there. -/
structure Unobservable (r : LazyRequest) (xs : List Call) : Prop where
  thinning : ∀ pre obs, pre <+: xs → (∀ o ∈ obs, Call.observes o = true) →
    ThinningLaw r (pre ++ obs)
  delParam : ∀ pre key, pre ++ [.delParam key] <+: xs →
    ((r.run (pre ++ [.delParam key])).hasParam key).1 = none
  delCookie : ∀ pre key, pre ++ [.delCookie key] <+: xs →
    ((r.run (pre ++ [.delCookie key])).hasCookie key).1 = none

/-- The calls that are no observers. -/
def changes (xs : List Call) : List Call := xs.filter fun c => !c.observes

/-- An observer has looked at a map. -/
def looked (xs : List Call) (j : Jar) : Prop := ∃ o ∈ xs, (o.action j).looks = true

/-- What may be called on `r` so that it makes no difference whether the maps have been looked at,
as they may have been where `seen` holds. -/
structure CallOk (r : LazyRequest) (seen : Jar → Prop) (c : Call) : Prop where
  /-- What is deleted does not wait in a text that is still to be parsed. -/
  erases : ∀ j key, c.action j = .erase key →
    first caseInsensitiveLess key ((r.jar j).pending r.toHttpRequest) = none
  /-- A new text has the same values as the old one for all keys that are not in the map. -/
  sources : ∀ j, seen j → ∀ key, (r.jar j).made.find caseInsensitiveLess key = none →
    first caseInsensitiveLess key ((r.jar j).pending (c.onSource r.toHttpRequest)) =
      first caseInsensitiveLess key ((r.jar j).pending r.toHttpRequest)

/-- Every call does so, on the request as the changes before it alone have left it. -/
def CallsOk (r : LazyRequest) (xs : List Call) : Prop :=
  ∀ pre c, pre ++ [c] <+: xs → CallOk (r.run (changes pre)) (looked pre) c

theorem kept_append (xs ys : List (Call × Bool)) : kept (xs ++ ys) = kept xs ++ kept ys := by
  unfold kept
  rw [List.filter_append, List.map_append]

theorem keptResults_append {cs : List (Call × Bool)} {rs : List Result}
    (h : cs.length = rs.length) (cs' : List (Call × Bool)) (rs' : List Result) :
    keptResults (cs ++ cs') (rs ++ rs') = keptResults cs rs ++ keptResults cs' rs' := by
  unfold keptResults
  rw [List.zip_append h, List.filter_append, List.map_append]

theorem changes_snoc (xs : List Call) (c : Call) :
    changes (xs ++ [c]) = changes xs ++ if c.observes then [] else [c] := by
  unfold changes
  rw [List.filter_append]
  cases hobs : c.observes <;> simp [hobs]

theorem looked_snoc {xs : List Call} {c : Call} {j : Jar} :
    looked (xs ++ [c]) j ↔ looked xs j ∨ (c.action j).looks = true := by
  unfold looked
  simp [or_and_right, exists_or]

/-! ## Runs with the same changes -/

/-- `t` is a run with the same changes as `u`, which is one without observers. -/
structure Tracks (seen : Jar → Prop) (u t : LazyRequest) : Prop where
  source : t.toHttpRequest = u.toHttpRequest
  jars : ∀ j, LazyMap.Tracks caseInsensitiveLess u.toHttpRequest (seen j) (u.jar j) (t.jar j)

namespace Tracks

variable {seen seen' : Jar → Prop} {u t : LazyRequest} {c : Call}

theorem refl (seen : Jar → Prop) (u : LazyRequest) : Tracks seen u u := ⟨rfl, fun _ => .inl rfl⟩

theorem view (h : Tracks seen u t) : t.view = u.view := by
  funext j key
  show (t.jar j).view _ t.toHttpRequest key = _
  rw [h.source]
  exact (h.jars j).view key

theorem result (h : Tracks seen u t) (c : Call) : (t.call c).1 = (u.call c).1 := by
  rw [LazyRequest.call_result, LazyRequest.call_result, h.view]

theorem mono (h : Tracks seen u t) (hseen : ∀ j, seen j → seen' j) : Tracks seen' u t :=
  ⟨h.source, fun j => (h.jars j).mono (hseen j)⟩

/-- An observer that `t` calls. -/
theorem observe (h : Tracks seen u t) (hobs : c.observes = true) (hseen : ∀ j, seen j → seen' j)
    (hlooks : ∀ j, (c.action j).looks = true → seen' j) : Tracks seen' u (t.call c).2 := by
  constructor
  · rw [LazyRequest.call_source, Call.onSource_of_observes hobs, h.source]
  · intro j
    rw [LazyRequest.call_jar, h.source]
    rcases Call.action_of_observes hobs j with hact | hact
    · rw [hact]
      exact (h.jars j).force ranks_caseKey (hlooks j (by rw [hact]; rfl))
    · rw [hact]
      exact (h.jars j).mono (hseen j)

/-- A change that both make. -/
theorem change (h : Tracks seen u t) (hobs : c.observes = false) (hok : CallOk u seen c) :
    Tracks seen (u.call c).2 (t.call c).2 := by
  have hlooks : ∀ j, (c.action j).looks = false := by
    intro j
    rw [← Bool.not_eq_true]
    intro hlooks
    rw [Call.observes_iff.mpr ⟨j, hlooks⟩] at hobs
    cases hobs
  constructor
  · rw [LazyRequest.call_source, LazyRequest.call_source, h.source]
  · intro j
    rw [LazyRequest.call_source, LazyRequest.call_jar, LazyRequest.call_jar, h.source]
    have hact := (h.jars j).act ranks_caseKey (hlooks j) (hok.erases j)
    rcases c.action_or_source j with hnone | hsource
    · refine hact.source ?_
      rw [hnone]
      exact fun hj => LazyMap.view_source.mpr (hok.sources j hj)
    · rw [hsource]
      exact hact

end Tracks

section Run

variable {r : LazyRequest} {xs : List Call}

theorem CallsOk.of_isPrefix {pre : List Call} (h : CallsOk r xs) (hpre : pre <+: xs) :
    CallsOk r pre := fun p c hp => h p c (hp.trans hpre)

/-- Any run that has the changes of `xs`, and some of its observers. -/
theorem tracks_run {cs : List (Call × Bool)} (hthin : ThinsObservers cs)
    (hok : CallsOk r (cs.map (·.1))) :
    Tracks (looked (cs.map (·.1))) (r.run (changes (cs.map (·.1)))) (r.run (kept cs)) := by
  induction cs using List.reverseRecOn with
  | nil => exact Tracks.refl _ r
  | append_singleton cs e ih =>
      obtain ⟨c, keep⟩ := e
      have hsplit : (cs ++ [(c, keep)]).map (·.1) = cs.map (·.1) ++ [c] := List.map_append
      rw [hsplit] at hok ⊢
      have hpre := ih (fun e he => hthin e (List.mem_append_left _ he))
        (hok.of_isPrefix (List.prefix_append _ _))
      have hcall := hok _ c (List.prefix_refl _)
      have hseen : ∀ j, looked (cs.map (·.1)) j → looked (cs.map (·.1) ++ [c]) j :=
        fun j hj => looked_snoc.mpr (.inl hj)
      rw [changes_snoc, kept_append]
      cases hobs : c.observes with
      | true =>
          rw [if_pos rfl, List.append_nil]
          cases keep with
          | true =>
              rw [LazyRequest.run_append]
              exact hpre.observe hobs hseen fun j hj => looked_snoc.mpr (.inr hj)
          | false =>
              show Tracks _ _ (r.run (kept cs ++ []))
              rw [List.append_nil]
              exact hpre.mono hseen
      | false =>
          cases keep with
          | true =>
              rw [if_neg Bool.false_ne_true, LazyRequest.run_append, LazyRequest.run_append]
              exact (hpre.change hobs hcall).mono hseen
          | false =>
              -- only observers are left out
              have hgone : c.observes = true :=
                hthin (c, false) (List.mem_append_right _ (List.mem_singleton_self _)) rfl
              rw [hobs] at hgone
              cases hgone

/-- The run of all the calls is one of them. -/
theorem tracks_full (hok : CallsOk r xs) :
    Tracks (looked xs) (r.run (changes xs)) (r.run xs) := by
  have hfst : (xs.map fun c => (c, true)).map (·.1) = xs := by
    rw [List.map_map]
    exact List.map_id xs
  have hkept : kept (xs.map fun c => (c, true)) = xs := by
    unfold kept
    rw [List.filter_eq_self.mpr, hfst]
    intro e he
    obtain ⟨c, -, rfl⟩ := List.mem_map.mp he
    rfl
  have hthin : ThinsObservers (xs.map fun c => (c, true)) := by
    intro e he hgone
    obtain ⟨c, -, rfl⟩ := List.mem_map.mp he
    cases hgone
  have hrun := tracks_run (r := r) hthin (by rw [hfst]; exact hok)
  rw [hfst, hkept] at hrun
  exact hrun

theorem thinningLaw_of_callsOk (hok : CallsOk r xs) : ThinningLaw r xs := by
  intro cs hcs hthin
  subst hcs
  induction cs using List.reverseRecOn with
  | nil => rfl
  | append_singleton cs e ih =>
      obtain ⟨c, keep⟩ := e
      have hsplit : (cs ++ [(c, keep)]).map (·.1) = cs.map (·.1) ++ [c] := List.map_append
      rw [hsplit] at hok ⊢
      have hok' := hok.of_isPrefix (List.prefix_append _ _)
      have hthin' : ThinsObservers cs := fun e he => hthin e (List.mem_append_left _ he)
      have hlen : cs.length = (r.results (cs.map (·.1))).length := by
        rw [LazyRequest.results_length, List.length_map]
      have hsame : ((r.run (kept cs)).call c).1 = ((r.run (cs.map (·.1))).call c).1 := by
        rw [(tracks_run hthin' hok').result, (tracks_full hok').result]
      rw [kept_append, LazyRequest.results_append, LazyRequest.results_append,
        keptResults_append hlen, ih hthin' hok']
      cases keep with
      | false => rfl
      | true =>
          show _ ++ [((r.run (kept cs)).call c).1] = _ ++ [((r.run (cs.map (·.1))).call c).1]
          rw [hsame]

/-! ### What a key that has been deleted shows -/

theorem Call.action_erase {c : Call} {j : Jar} {key : List UInt8} (h : c.action j = .erase key) :
    c = Call.del j key := by
  cases c with
  | delParam k =>
      cases j with
      | params =>
          injection h with hk
          rw [hk]
          rfl
      | cookies => cases h
  | delCookie k =>
      cases j with
      | params => cases h
      | cookies =>
          injection h with hk
          rw [hk]
          rfl
  | _ => cases j <;> cases h

theorem Call.action_del (j : Jar) (key : List UInt8) : (Call.del j key).action j = .erase key := by
  cases j <;> rfl

theorem Call.source_del (j : Jar) (key : List UInt8) (src : HttpRequest) :
    (Call.del j key).onSource src = src := by
  cases j <;> rfl

theorem view_del (u : LazyRequest) (j : Jar) (key : List UInt8) :
    (u.call (Call.del j key)).2.view j key =
      first caseInsensitiveLess key ((u.jar j).pending u.toHttpRequest) := by
  show ((u.call _).2.jar j).view _ (u.call _).2.toHttpRequest key = _
  rw [LazyRequest.call_source, LazyRequest.call_jar, Call.action_del, Call.source_del]
  show ((u.jar j).erase caseInsensitiveLess key).view _ _ key = _
  rw [LazyMap.view_erase ranks_caseKey, if_pos rfl]

/-- The run of the changes up to a deletion. -/
theorem run_changes_del (r : LazyRequest) (pre : List Call) (j : Jar) (key : List UInt8) :
    r.run (changes (pre ++ [Call.del j key])) =
      ((r.run (changes pre)).call (Call.del j key)).2 := by
  have hobs : (Call.del j key).observes = false := by cases j <;> rfl
  rw [changes_snoc, hobs, if_neg Bool.false_ne_true, LazyRequest.run_append]
  rfl

theorem view_after_del (hok : CallsOk r xs) {pre : List Call} {j : Jar} {key : List UInt8}
    (hpre : pre ++ [Call.del j key] <+: xs) :
    (r.run (pre ++ [Call.del j key])).view j key = none := by
  rw [(tracks_full (hok.of_isPrefix hpre)).view, run_changes_del, view_del]
  exact (hok pre _ hpre).erases j key (Call.action_del j key)

/-! ### What the law says of the maps -/

/-- The run of the changes alone shows what the whole run does. -/
theorem ThinningLaw.view {j : Jar} {key : List UInt8}
    (hlaw : ThinningLaw r (xs ++ [Call.has j key])) :
    (r.run xs).view j key = (r.run (changes xs)).view j key := by
  have hfst : ((xs.map fun c => (c, !c.observes)) ++ [(Call.has j key, true)]).map (·.1) =
      xs ++ [Call.has j key] := by
    rw [List.map_append, List.map_map]
    exact congrArg (· ++ _) (List.map_id xs)
  have hkept : kept ((xs.map fun c => (c, !c.observes)) ++ [(Call.has j key, true)]) =
      changes xs ++ [Call.has j key] := by
    rw [kept_append]
    unfold kept changes
    rw [List.filter_map, List.map_map]
    exact congrArg (· ++ _) (List.map_id _)
  have hthin : ThinsObservers ((xs.map fun c => (c, !c.observes)) ++ [(Call.has j key, true)]) := by
    intro e he hgone
    rcases List.mem_append.mp he with hmem | hmem
    · obtain ⟨c, -, rfl⟩ := List.mem_map.mp hmem
      simpa using hgone
    · rw [List.mem_singleton.mp hmem] at hgone
      cases hgone
  have hlen : (xs.map fun c => (c, !c.observes)).length = (r.results xs).length := by
    rw [List.length_map, LazyRequest.results_length]
  have hresults := hlaw _ hfst hthin
  rw [hkept, LazyRequest.results_append, LazyRequest.results_append, keptResults_append hlen]
    at hresults
  -- the last results
  have hlast := List.append_inj_right' hresults rfl
  change [((r.run (changes xs)).call (Call.has j key)).1] =
    [((r.run xs).call (Call.has j key)).1] at hlast
  rw [LazyRequest.call_result, LazyRequest.call_result, Call.answer_has, Call.answer_has] at hlast
  injection hlast with hanswer
  injection hanswer with hview
  exact hview.symm

theorem closed_of_looked {j : Jar} (h : looked xs j) : ((r.run xs).jar j).Closed := by
  induction xs using List.reverseRecOn with
  | nil =>
      obtain ⟨o, ho, -⟩ := h
      cases ho
  | append_singleton xs c ih =>
      rw [LazyRequest.run_append]
      show ((((r.run xs).call c).2).jar j).Closed
      rw [LazyRequest.call_jar]
      rcases looked_snoc.mp h with hbefore | hnow
      · exact (ih hbefore).act ranks_caseKey _ _
      · exact LazyMap.closed_of_looks ranks_caseKey _ _ hnow

/-! ### Sequences that meet the condition -/

theorem CallsOk.nil : CallsOk r [] := by
  intro pre c hpre
  exact absurd (List.prefix_nil.mp hpre) (by simp)

theorem CallsOk.snoc {c : Call} (h : CallsOk r xs)
    (hc : CallOk (r.run (changes xs)) (looked xs) c) : CallsOk r (xs ++ [c]) := by
  intro pre d hpre
  rcases List.prefix_concat_iff.mp hpre with heq | hbefore
  · obtain ⟨rfl, hd⟩ := List.append_inj' heq rfl
    injection hd with hd
    rw [hd]
    exact hc
  · exact h pre d hbefore

/-- Nothing is asked of an observer. -/
theorem callOk_of_observes (u : LazyRequest) (seen : Jar → Prop) {c : Call}
    (hobs : c.observes = true) : CallOk u seen c := by
  constructor
  · intro j key herase
    rcases Call.action_of_observes hobs j with hact | hact
    · rw [hact] at herase
      cases herase
    · rw [hact] at herase
      cases herase
  · intro j _ key _
    rw [Call.onSource_of_observes hobs]

theorem CallsOk.observe (h : CallsOk r xs) {obs : List Call}
    (hobs : ∀ o ∈ obs, Call.observes o = true) : CallsOk r (xs ++ obs) := by
  induction obs using List.reverseRecOn with
  | nil =>
      rw [List.append_nil]
      exact h
  | append_singleton obs o ih =>
      rw [← List.append_assoc]
      refine (ih fun x hx => hobs x (List.mem_append_left _ hx)).snoc ?_
      exact callOk_of_observes _ _ (hobs o (List.mem_append_right _ (List.mem_singleton_self o)))

/-! ### And only those -/

namespace Unobservable

theorem law (h : Unobservable r xs) {pre : List Call} (hpre : pre <+: xs) (j : Jar)
    (key : List UInt8) : ThinningLaw r (pre ++ [Call.has j key]) := by
  refine h.thinning pre [Call.has j key] hpre ?_
  intro o ho
  rw [List.mem_singleton.mp ho]
  cases j <;> rfl

theorem deleted (h : Unobservable r xs) {pre : List Call} {j : Jar} {key : List UInt8}
    (hpre : pre ++ [Call.del j key] <+: xs) :
    (r.run (pre ++ [Call.del j key])).view j key = none := by
  cases j with
  | params => exact (LazyRequest.find_initParams _ key).symm.trans (h.delParam pre key hpre)
  | cookies => exact (LazyRequest.find_initCookies _ key).symm.trans (h.delCookie pre key hpre)

theorem erases (h : Unobservable r xs) {pre : List Call} {c : Call} (hpre : pre ++ [c] <+: xs)
    {j : Jar} {key : List UInt8} (hact : c.action j = .erase key) :
    first caseInsensitiveLess key
      (((r.run (changes pre)).jar j).pending (r.run (changes pre)).toHttpRequest) = none := by
  obtain rfl := Call.action_erase hact
  rw [← view_del, ← run_changes_del, ← (h.law hpre j key).view]
  exact h.deleted hpre

/-- After a look the whole run shows no new text, so that the run of the changes must not. -/
theorem sources (h : Unobservable r xs) {pre : List Call} {c : Call} (hpre : pre ++ [c] <+: xs)
    {j : Jar} (hlooked : looked pre j) (key : List UInt8) :
    ((r.run (changes pre)).jar j).view caseInsensitiveLess
        (c.onSource (r.run (changes pre)).toHttpRequest) key =
      (r.run (changes pre)).view j key := by
  rcases c.action_or_source j with hnone | hsource
  · cases hobs : c.observes with
    | true =>
        rw [Call.onSource_of_observes hobs]
        rfl
    | false =>
        have hbefore := (h.law ((List.prefix_append pre [c]).trans hpre) j key).view
        have hafter := (h.law hpre j key).view
        rw [changes_snoc, hobs, if_neg Bool.false_ne_true, LazyRequest.run_append,
          LazyRequest.run_append] at hafter
        have hjar : ∀ u : LazyRequest, (u.call c).2.jar j = u.jar j := by
          intro u
          rw [LazyRequest.call_jar, hnone]
          rfl
        have hfull : ((r.run pre).call c).2.view j key = (r.run pre).view j key := by
          show (((r.run pre).call c).2.jar j).view _ _ key = ((r.run pre).jar j).view _ _ key
          rw [hjar, (closed_of_looked hlooked).view, (closed_of_looked hlooked).view]
        have hbare : ((r.run (changes pre)).call c).2.view j key =
            ((r.run (changes pre)).jar j).view caseInsensitiveLess
              (c.onSource (r.run (changes pre)).toHttpRequest) key := by
          show (((r.run (changes pre)).call c).2.jar j).view _ _ key = _
          rw [hjar, LazyRequest.call_source]
        calc ((r.run (changes pre)).jar j).view caseInsensitiveLess
              (c.onSource (r.run (changes pre)).toHttpRequest) key
            = ((r.run (changes pre)).call c).2.view j key := hbare.symm
          _ = ((r.run pre).call c).2.view j key := hafter.symm
          _ = (r.run pre).view j key := hfull
          _ = (r.run (changes pre)).view j key := hbefore
  · rw [hsource]
    rfl

end Unobservable

end Run

/-- Lazy parsing does not show in a run if and only if every call meets the condition. -/
theorem parsing_unobservable (r : LazyRequest) (xs : List Call) :
    Unobservable r xs ↔ CallsOk r xs := by
  constructor
  · intro h pre c hpre
    constructor
    · intro j key hact
      exact h.erases hpre hact
    · intro j hlooked
      exact LazyMap.view_source.mp (h.sources hpre hlooked)
  · intro hok
    constructor
    · intro pre obs hpre hobs
      exact thinningLaw_of_callsOk ((hok.of_isPrefix hpre).observe hobs)
    · intro pre key hpre
      exact (LazyRequest.find_initParams _ key).trans (view_after_del (j := .params) hok hpre)
    · intro pre key hpre
      exact (LazyRequest.find_initCookies _ key).trans (view_after_del (j := .cookies) hok hpre)

/-- A parameter of the query, deleted before any observer is called, is there; after one it is
gone. -/
theorem parsing_observed :
    ((LazyRequest.run { query := bytes "a=1" } [.delParam (bytes "a")]).hasParam (bytes "a")).1 =
        some (bytes "1") ∧
      ¬ ThinningLaw { query := bytes "a=1" }
        [.hasParam (bytes "a"), .delParam (bytes "a"), .hasParam (bytes "a")] := by
  constructor
  · decide
  · intro hlaw
    have hthin := hlaw [(.hasParam (bytes "a"), false), (.delParam (bytes "a"), true),
      (.hasParam (bytes "a"), true)] rfl (by unfold ThinsObservers; decide)
    revert hthin
    decide

/-- Changes before an observer, after it, and between two. -/
theorem parsing_unobservable_mixed :
    Unobservable { headers := [(bytes "cookie", bytes "s=7")] }
      [.setQuery (bytes "a=1"), .hasParam (bytes "a"), .setParam (bytes "b") (bytes "2"),
        .delParam (bytes "c"), .getCookie (bytes "s") [], .setBody (bytes "x=1")] := by
  refine (parsing_unobservable _ _).mpr ?_
  have hnil : CallsOk { headers := [(bytes "cookie", bytes "s=7")] } [] := CallsOk.nil
  have hquery := hnil.snoc (c := .setQuery (bytes "a=1")) (by
    constructor
    · intro j key hact
      cases j <;> cases hact
    · rintro j ⟨o, ho, -⟩
      cases ho)
  have hhas := hquery.snoc (c := .hasParam (bytes "a")) (callOk_of_observes _ _ rfl)
  have hset := hhas.snoc (c := .setParam (bytes "b") (bytes "2")) (by
    constructor
    · intro j key hact
      cases j <;> cases hact
    · intro j _ key _
      rfl)
  have hdel := hset.snoc (c := .delParam (bytes "c")) (by
    constructor
    · intro j key hact
      have hkey := Call.action_erase hact
      cases j with
      | params =>
          injection hkey with hkey
          rw [← hkey]
          decide
      | cookies => cases hkey
    · intro j _ key _
      rfl)
  have hget := hdel.snoc (c := .getCookie (bytes "s") []) (callOk_of_observes _ _ rfl)
  refine hget.snoc (c := .setBody (bytes "x=1")) ?_
  constructor
  · intro j key hact
    cases j <;> cases hact
  · -- the body is not a form, and says nothing
    intro j _ key _
    cases j with
    | params => exact congrArg (first caseInsensitiveLess key) (by decide)
    | cookies => rfl

end Gxh.Http
