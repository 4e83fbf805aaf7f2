import Piconaut.Main.HelloWorldHandler
import Piconaut.Routers.Parameters

/-!
# The program of `main.cc`

`main` registers five routes, all of them with a `HelloWorldHandler`.  `requested` is what a
reader of the route table expects for the segments of a path: a page with its parameters,
a path that only leads to pages, or neither.

`respond_main` says that the program does this from the request to the bytes that are
sent: the 404, the document with exactly the parameters of the route, or an exception on
the paths in between.
-/

namespace Piconaut.Main

open Piconaut.CppStd Piconaut.Handlers Piconaut.Routers Piconaut.Http

/-! ## The registrations -/

/-- `g_server_->RegisterHandler("/post", handler1)` -/
def postRoute : Registration Nat := ⟨.literal (str "/post") rfl, some 1⟩

/-- `g_server_->RegisterHandler("/post/{id}", handler2)` -/
def idRoute : Registration Nat := ⟨.literal (str "/post/{id}") rfl, some 2⟩

/-- `g_server_->RegisterHandler("/post/{id}/{slug}", handler3)` -/
def slugRoute : Registration Nat := ⟨.literal (str "/post/{id}/{slug}") rfl, some 3⟩

/-- `g_server_->RegisterHandler("/{year}/{month}", handler3)` -/
def monthRoute : Registration Nat := ⟨.literal (str "/{year}/{month}") rfl, some 3⟩

/-- `g_server_->RegisterHandler("/{year}/{month}/post/{id}/{slug}", handler3)` -/
def archiveRoute : Registration Nat :=
  ⟨.literal (str "/{year}/{month}/post/{id}/{slug}") rfl, some 3⟩

/-- The registrations of `main`, in its order. -/
def mainRegistrations : List (Registration Nat) :=
  [postRoute, idRoute, slugRoute, monthRoute, archiveRoute]

/-! ## What a path asks for -/

/-- What the segments of a path ask for. -/
inductive Requested where
  /-- The page of a route, with the parameters that the path gives. -/
  | page (route : Registration Nat) (params : List (Str × Str))
  /-- A node of the route table without a page. -/
  | interior (s : Loc)
  | missing

/-- The static segment of the routes. -/
abbrev post : Str := str "post"

/-- The paths below `/post`. -/
def afterPost : List Str → Requested
  | [] => .page postRoute []
  | [y] => if matchesParamRegex y then .page idRoute [(str "id", y)] else .missing
  | [y, z] =>
    if matchesParamRegex y && matchesParamRegex z then
      .page slugRoute [(str "id", y), (str "slug", z)]
    else .missing
  | _ => .missing

/-- The paths below `post` in the month `y` of the year `x`. -/
def afterArchive (x y : Str) : List Str → Requested
  | [] => .interior [[], paramMarker, paramMarker, post]
  | [v] =>
    if matchesParamRegex v then .interior [[], paramMarker, paramMarker, post, paramMarker]
    else .missing
  | [v, w] =>
    if matchesParamRegex v && matchesParamRegex w then
      .page archiveRoute [(str "year", x), (str "month", y), (str "id", v), (str "slug", w)]
    else .missing
  | _ => .missing

/-- The paths below the year `x`. -/
def afterYear (x : Str) : List Str → Requested
  | [] => .interior [[], paramMarker]
  | [y] =>
    if matchesParamRegex y then .page monthRoute [(str "year", x), (str "month", y)]
    else .missing
  | y :: z :: rest =>
    if matchesParamRegex y && z = post then afterArchive x y rest else .missing

/-- The paths of the program.  The segments of a path start with an empty one, which stands
before the first slash. -/
def requested : List Str → Requested
  | [[]] => .interior [[]]
  | [] :: x :: xs =>
    if x = post then afterPost xs
    else if matchesParamRegex x then afterYear x xs
    else .missing
  | _ => .missing

/-- The node of the route table that is asked for. -/
def Requested.target : Requested → Option Loc
  | page route _ => some route.norm
  | interior s => some s
  | missing => none

/-! ## The descent of `MatchRoute` -/

/-- The normalized routes. -/
def mainPatterns : List Loc :=
  [[[], post], [[], post, paramMarker], [[], post, paramMarker, paramMarker],
    [[], paramMarker, paramMarker],
    [[], paramMarker, paramMarker, post, paramMarker, paramMarker]]

theorem norm_mainRegistrations : mainRegistrations.map Registration.norm = mainPatterns := by
  decide

theorem accepted_mainRegistrations : ∀ reg ∈ mainRegistrations, reg.accepted = true := by
  decide

/-- The nodes of the route table. -/
def mainNode (s : Loc) : Bool := mainPatterns.any fun p => s.isPrefixOf p

theorem mainNode_iff {s : Loc} : mainNode s = true ↔ s = [] ∨ OnWay mainRegistrations s := by
  have hway : OnWay mainRegistrations s ↔ ∃ p ∈ mainPatterns, s <+: p := by
    rw [← norm_mainRegistrations]
    simp only [OnWay, List.mem_map, exists_exists_and_eq_and]
    refine exists_congr fun reg => and_congr_right fun hreg => ?_
    simp [accepted_mainRegistrations reg hreg]
  rw [hway, mainNode, List.any_eq_true]
  simp only [List.isPrefixOf_iff_prefix]
  constructor
  · exact Or.inr
  · rintro (rfl | h)
    · exact ⟨_, List.mem_cons_self, List.nil_prefix⟩
    · exact h

theorem present_main (hasher : Str → SizeT) :
    present (runCalls (callsOf hasher mainRegistrations)).root = mainNode := by
  funext s
  rw [Bool.eq_iff_iff, mainNode_iff, present_iff]
  refine or_congr_right ⟨?_, ?_⟩
  · rintro ⟨c, hc, hacc, hp⟩
    obtain ⟨reg, hreg, rfl⟩ := List.mem_map.1 hc
    exact ⟨reg, hreg, hacc, hp⟩
  · rintro ⟨reg, hreg, hacc, hp⟩
    exact ⟨_, List.mem_map_of_mem hreg, hacc, hp⟩

/-- Below the first slash the keys are `post` and the marker. -/
theorem key_of_mainNode {s : Loc} (hs : s ≠ []) {k : Str} (h : mainNode (s ++ [k]) = true) :
    k = post ∨ k = paramMarker := by
  have htail : ∀ p ∈ mainPatterns, ∀ k ∈ p.tail, k = post ∨ k = paramMarker := by decide
  obtain ⟨p, hp, hpre⟩ := List.any_eq_true.1 h
  obtain ⟨rest, rfl⟩ := List.isPrefixOf_iff_prefix.1 hpre
  refine htail _ hp k ?_
  obtain ⟨k₀, s', rfl⟩ := List.exists_cons_of_ne_nil hs
  simp

/-- One step of the descent below the first slash. -/
theorem next_main {s : Loc} (hs : s ≠ []) (x : Str) :
    GreedyWalk.next mainNode paramMarker matchesParamRegex s x =
      if x = post ∧ mainNode (s ++ [post]) = true then some post
      else if mainNode (s ++ [paramMarker]) = true ∧ matchesParamRegex x = true then
        some paramMarker
      else none := by
  rw [GreedyWalk.next]
  by_cases hx : x = post
  · subst hx
    simp [show post ≠ paramMarker by decide]
  · have hno : ¬ (x ≠ paramMarker ∧ mainNode (s ++ [x]) = true) := fun h =>
      (key_of_mainNode hs h.2).elim hx h.1
    rw [if_neg hno, if_neg (fun h : x = post ∧ _ => hx h.1)]

/-- The descent over the route table. -/
abbrev walkMain : Loc → List Str → Option Loc :=
  GreedyWalk.walk mainNode paramMarker matchesParamRegex

/-- At a node with a parameter child only, a segment is a parameter or the end. -/
theorem walkMain_param {s : Loc} (hs : s ≠ []) (hpost : mainNode (s ++ [post]) = false)
    (hparam : mainNode (s ++ [paramMarker]) = true) (x : Str) (xs : List Str) :
    walkMain s (x :: xs) =
      if matchesParamRegex x then walkMain (s ++ [paramMarker]) xs else none := by
  rw [walkMain, GreedyWalk.walk_cons, next_main hs, hpost, hparam]
  by_cases hx : matchesParamRegex x = true
  · simp [hx]
  · simp [hx]

/-- At a node without children a segment is too many. -/
theorem walkMain_leaf {s : Loc} (hs : s ≠ []) (hpost : mainNode (s ++ [post]) = false)
    (hparam : mainNode (s ++ [paramMarker]) = false) (x : Str) (xs : List Str) :
    walkMain s (x :: xs) = none := by
  rw [walkMain, GreedyWalk.walk_cons, next_main hs, hpost, hparam]
  simp

theorem walkMain_post {s : Loc} (hs : s ≠ []) (hpost : mainNode (s ++ [post]) = true)
    (hparam : mainNode (s ++ [paramMarker]) = false) (x : Str) (xs : List Str) :
    walkMain s (x :: xs) = if x = post then walkMain (s ++ [post]) xs else none := by
  rw [walkMain, GreedyWalk.walk_cons, next_main hs, hpost, hparam]
  by_cases hx : x = post
  · simp [hx]
  · simp [hx]

/-- Below both occurrences of `post` there are two parameters and no more. -/
theorem walkMain_params {s : Loc}
    (hs : s = [[], post] ∨ s = [[], paramMarker, paramMarker, post]) (xs : List Str) :
    walkMain s xs =
      match xs with
      | [] => some s
      | [y] => if matchesParamRegex y then some (s ++ [paramMarker]) else none
      | [y, z] =>
        if matchesParamRegex y && matchesParamRegex z then
          some (s ++ [paramMarker] ++ [paramMarker])
        else none
      | _ => none := by
  have hfirst : ∀ y ys, walkMain s (y :: ys) =
      if matchesParamRegex y then walkMain (s ++ [paramMarker]) ys else none := by
    rcases hs with rfl | rfl <;> exact walkMain_param (by decide) (by decide) (by decide)
  have hsecond : ∀ z zs, walkMain (s ++ [paramMarker]) (z :: zs) =
      if matchesParamRegex z then walkMain (s ++ [paramMarker] ++ [paramMarker]) zs
      else none := by
    rcases hs with rfl | rfl <;> exact walkMain_param (by decide) (by decide) (by decide)
  have hthird : ∀ v vs, walkMain (s ++ [paramMarker] ++ [paramMarker]) (v :: vs) = none := by
    rcases hs with rfl | rfl <;> exact walkMain_leaf (by decide) (by decide) (by decide)
  match xs with
  | [] => rfl
  | [y] => exact hfirst y []
  | [y, z] =>
    rw [hfirst, hsecond]
    cases hy : matchesParamRegex y with
    | false => simp [hy]
    | true => simp [hy, GreedyWalk.walk]
  | y :: z :: v :: rest => rw [hfirst, hsecond, hthird, ite_self, ite_self]

theorem walkMain_afterPost (xs : List Str) :
    walkMain [[], post] xs = (afterPost xs).target := by
  rw [walkMain_params (.inl rfl), afterPost.eq_def]
  split
  · exact congrArg some (by decide)
  · split
    · exact congrArg some (by decide)
    · rfl
  · split
    · exact congrArg some (by decide)
    · rfl
  · rfl

theorem walkMain_afterArchive (x y : Str) (xs : List Str) :
    walkMain [[], paramMarker, paramMarker, post] xs = (afterArchive x y xs).target := by
  rw [walkMain_params (.inr rfl), afterArchive.eq_def]
  split
  · rfl
  · split
    · rfl
    · rfl
  · split
    · exact congrArg some (by decide)
    · rfl
  · rfl

theorem walkMain_afterYear (x : Str) (xs : List Str) :
    walkMain [[], paramMarker] xs = (afterYear x xs).target := by
  match xs with
  | [] => rfl
  | [y] =>
    rw [walkMain_param (by decide) (by decide) (by decide), afterYear]
    split
    · exact congrArg some (by decide)
    · rfl
  | y :: z :: rest =>
    rw [walkMain_param (by decide) (by decide) (by decide),
      walkMain_post (by decide) (by decide) (by decide), afterYear]
    cases matchesParamRegex y with
    | false => rfl
    | true =>
      by_cases hz : z = post
      · subst hz
        exact walkMain_afterArchive x y rest
      · simp [hz, Requested.target]

/-- The descent ends at the node that is asked for. -/
theorem walkMain_requested (xs : List Str) (hxs : xs ≠ []) :
    walkMain [] xs = (requested xs).target := by
  obtain ⟨x₀, xs, rfl⟩ := List.exists_cons_of_ne_nil hxs
  have hroot : GreedyWalk.next mainNode paramMarker matchesParamRegex [] x₀ =
      if x₀ = [] then some [] else none := by
    have hstatic : mainNode ([] ++ [x₀]) = true ↔ x₀ = [] := by
      simp [mainNode, mainPatterns]
    have hparam : mainNode ([] ++ [paramMarker]) = false := by decide
    by_cases hx : x₀ = []
    · subst hx
      decide
    · rw [GreedyWalk.next, if_neg fun h => hx (hstatic.1 h.2), hparam, if_neg hx]
      simp
  rw [walkMain, GreedyWalk.walk_cons, hroot]
  by_cases hx : x₀ = []
  · subst hx
    rw [if_pos rfl, Option.bind_some]
    cases xs with
    | nil => rfl
    | cons x xs =>
      rw [GreedyWalk.walk_cons, next_main (by decide), requested]
      by_cases hpost : x = post
      · subst hpost
        exact walkMain_afterPost xs
      · rw [if_neg fun h => hpost h.1, if_neg hpost]
        cases hok : matchesParamRegex x with
        | true => exact walkMain_afterYear x xs
        | false => rfl
  · rw [if_neg hx, requested.eq_def]
    split
    · next heq => exact absurd (List.cons.inj heq).1 hx
    · next heq => exact absurd (List.cons.inj heq).1 hx
    · rfl

/-! ## Pages and interior nodes -/

/-- The paths that ask for a page, one case for each route. -/
inductive PageFor : List Str → Registration Nat → List (Str × Str) → Prop where
  | post : PageFor [[], Main.post] postRoute []
  | id {y : Str} (hy : matchesParamRegex y = true) :
      PageFor [[], Main.post, y] idRoute [(str "id", y)]
  | slug {y z : Str} (hy : matchesParamRegex y = true) (hz : matchesParamRegex z = true) :
      PageFor [[], Main.post, y, z] slugRoute [(str "id", y), (str "slug", z)]
  | month {x y : Str} (hx : matchesParamRegex x = true) (hy : matchesParamRegex y = true) :
      PageFor [[], x, y] monthRoute [(str "year", x), (str "month", y)]
  | archive {x y v w : Str} (hx : matchesParamRegex x = true) (hy : matchesParamRegex y = true)
      (hv : matchesParamRegex v = true) (hw : matchesParamRegex w = true) :
      PageFor [[], x, y, Main.post, v, w] archiveRoute
        [(str "year", x), (str "month", y), (str "id", v), (str "slug", w)]

variable {xs : List Str} {route : Registration Nat} {params : List (Str × Str)}

theorem pageFor_afterPost (h : afterPost xs = .page route params) :
    PageFor ([] :: post :: xs) route params := by
  unfold afterPost at h
  split at h
  · cases h
    exact .post
  · split at h
    · next hy =>
      cases h
      exact .id hy
    · cases h
  · split at h
    · next hyz =>
      cases h
      rw [Bool.and_eq_true] at hyz
      exact .slug hyz.1 hyz.2
    · cases h
  · cases h

theorem pageFor_afterArchive {x y : Str} (hx : matchesParamRegex x = true)
    (hy : matchesParamRegex y = true) (h : afterArchive x y xs = .page route params) :
    PageFor ([] :: x :: y :: post :: xs) route params := by
  unfold afterArchive at h
  split at h
  · cases h
  · split at h
    · cases h
    · cases h
  · split at h
    · next hvw =>
      cases h
      rw [Bool.and_eq_true] at hvw
      exact .archive hx hy hvw.1 hvw.2
    · cases h
  · cases h

theorem pageFor_afterYear {x : Str} (hx : matchesParamRegex x = true)
    (h : afterYear x xs = .page route params) : PageFor ([] :: x :: xs) route params := by
  unfold afterYear at h
  split at h
  · cases h
  · split at h
    · next hy =>
      cases h
      exact .month hx hy
    · cases h
  · split at h
    · next hyz =>
      rw [Bool.and_eq_true, decide_eq_true_iff] at hyz
      obtain ⟨hy, rfl⟩ := hyz
      exact pageFor_afterArchive hx hy h
    · cases h

theorem pageFor_requested (h : requested xs = .page route params) :
    PageFor xs route params := by
  unfold requested at h
  split at h
  · cases h
  · split at h
    · next hx =>
      subst hx
      exact pageFor_afterPost h
    · split at h
      · next hx => exact pageFor_afterYear hx h
      · cases h
  · cases h

/-- The route of a page is registered. -/
theorem PageFor.mem (h : PageFor xs route params) : route ∈ mainRegistrations := by
  cases h <;> simp [mainRegistrations]

/-- A value that matches the parameter regex has no NUL. -/
theorem cStr_of_matchesParamRegex {x : Str} (h : matchesParamRegex x = true) : cStr x = x := by
  refine cStr_of_not_mem fun hmem => ?_
  have hchar := (matchesParamRegex_iff.1 h).2 0 hmem
  revert hchar
  unfold IsParamChar
  decide

/-- The parameters of a page can be stored as they are. -/
theorem PageFor.storable (h : PageFor xs route params) : Storable params := by
  have hid : cStr (str "id") = str "id" := by decide
  have hslug : cStr (str "slug") = str "slug" := by decide
  have hyear : cStr (str "year") = str "year" := by decide
  have hmonth : cStr (str "month") = str "month" := by decide
  have hslugs : [str "id", str "slug"].Nodup := by decide
  have hmonths : [str "year", str "month"].Nodup := by decide
  have harchive : [str "year", str "month", str "id", str "slug"].Nodup := by decide
  cases h with
  | post => exact ⟨List.nodup_nil, by simp, by simp⟩
  | id hy => exact ⟨by simp, by simp [hid], by simp [cStr_of_matchesParamRegex hy]⟩
  | slug hy hz =>
    refine ⟨hslugs, by simp [hid, hslug], ?_⟩
    simp [cStr_of_matchesParamRegex hy, cStr_of_matchesParamRegex hz]
  | month hx hy =>
    refine ⟨hmonths, by simp [hyear, hmonth], ?_⟩
    simp [cStr_of_matchesParamRegex hx, cStr_of_matchesParamRegex hy]
  | archive hx hy hv hw =>
    refine ⟨harchive, by simp [hid, hslug, hyear, hmonth], ?_⟩
    simp [cStr_of_matchesParamRegex hx, cStr_of_matchesParamRegex hy,
      cStr_of_matchesParamRegex hv, cStr_of_matchesParamRegex hw]

/-- The routes of `main` agree on the names that they share. -/
theorem namesAgree_main (hasher : Str → SizeT) :
    NamesAgree (callsOf hasher mainRegistrations) := by
  have h : NamesAgree (callsOf (fun _ => 0) mainRegistrations) := by decide +kernel
  intro a ha hacc b hb hbacc
  obtain ⟨ra, hra, rfl⟩ := List.mem_map.1 ha
  obtain ⟨rb, hrb, rfl⟩ := List.mem_map.1 hb
  exact h (ra.toCall fun _ => 0) (List.mem_map_of_mem hra) hacc (rb.toCall fun _ => 0)
    (List.mem_map_of_mem hrb) hbacc

/-- The descent to a page records the parameters of the page. -/
theorem PageFor.bindings_eq (hasher : Str → SizeT) (h : PageFor xs route params) :
    bindings (nameAt (callsOf hasher mainRegistrations)) [] route.norm xs = params := by
  have hmem := List.mem_map_of_mem (f := Registration.toCall hasher) h.mem
  have hacc := accepted_mainRegistrations route h.mem
  have hnames : bindings (nameAt (callsOf hasher mainRegistrations)) [] route.norm xs =
      bindings (nameIn (route.toCall hasher)) [] route.norm xs :=
    bindings_congr _ _ fun l hl => nameAt_eq_nameIn (namesAgree_main hasher) hmem hacc hl
  rw [hnames]
  have hsegs := bindings_nameIn (route.toCall hasher) (segments route.path.bytes) [] xs rfl
  refine hsegs.trans ?_
  cases h with
  | post => rfl
  | id hy => rfl
  | slug hy hz => rfl
  | month hx hy => rfl
  | archive hx hy hv hw => rfl

/-- The interior nodes of the route table. -/
def interiorNodes : List Loc :=
  [[[]], [[], paramMarker], [[], paramMarker, paramMarker, post],
    [[], paramMarker, paramMarker, post, paramMarker]]

theorem afterPost_ne_interior (s : Loc) : afterPost xs ≠ .interior s := by
  intro h
  unfold afterPost at h
  split at h
  · cases h
  · split at h <;> cases h
  · split at h <;> cases h
  · cases h

theorem mem_of_afterArchive {x y : Str} {s : Loc} (h : afterArchive x y xs = .interior s) :
    s ∈ interiorNodes := by
  unfold afterArchive at h
  split at h
  · cases h
    decide
  · split at h
    · cases h
      decide
    · cases h
  · split at h <;> cases h
  · cases h

theorem mem_of_afterYear {x : Str} {s : Loc} (h : afterYear x xs = .interior s) :
    s ∈ interiorNodes := by
  unfold afterYear at h
  split at h
  · cases h
    decide
  · split at h <;> cases h
  · split at h
    · exact mem_of_afterArchive h
    · cases h

theorem mem_interiorNodes {s : Loc} (h : requested xs = .interior s) : s ∈ interiorNodes := by
  unfold requested at h
  split at h
  · cases h
    decide
  · split at h
    · exact absurd h (afterPost_ne_interior s)
    · split at h
      · exact mem_of_afterYear h
      · cases h
  · cases h

theorem lastRegistered_interior : ∀ s ∈ interiorNodes,
    lastRegistered mainRegistrations s = none := by
  intro s hs
  have h : ∀ s ∈ interiorNodes, (lastRegistered mainRegistrations s).isNone = true := by decide
  exact Option.isNone_iff_eq_none.1 (h s hs)

/-! ## The answers -/

/-- The request selects the node that its path asks for, and no other. -/
theorem selectedFor_main_iff (hasher : Str → SizeT) (req : Request) (s : Loc) :
    OnWay mainRegistrations s ∧ SelectedFor hasher mainRegistrations s req ↔
      (requested (segments req.getPath.bytes)).target = some s := by
  rw [← walkMain_requested _ (segments_ne_nil _), walkMain, ← present_main hasher]
  change _ ↔ walkFrom _ [] _ = some s
  rw [walkFrom_eq_some_iff, present_main, mainNode_iff]
  refine and_congr_left fun hsel => ⟨Or.inr, ?_⟩
  rintro (rfl | h)
  · exact absurd (List.length_eq_zero_iff.1 hsel.length_eq.symm) (segments_ne_nil _)
  · exact h

/-- What h2o gets for a request: the page of a route as the writer writes it, the 404, or an
exception.  The parameters are listed in some order. -/
def Responds (hasher : Str → SizeT) (order : PartialMap.Enumeration Str Str)
    (accept : Rapidjson.Value → Option Str) (req : H2oReq) : Requested → Prop
  | .page _ params => ∃ entries, entries.Perm params ∧
      respond hasher (helloHandleRequest order accept) mainRegistrations req =
        match accept (helloDocument req.request entries) with
        | some bytes => .ok (0, some { req with response := req.response.sendJson bytes 200 })
        | none =>
          .error (.exception (.runtimeError (str "Failed to serialize JSON document.")))
  | .interior _ => respond hasher (helloHandleRequest order accept) mainRegistrations req =
      .error (.exception (interiorError hasher mainRegistrations))
  | .missing => respond hasher (helloHandleRequest order accept) mainRegistrations req =
      .ok (0, some
        { req with response := req.response.sendWith (str "Eror 404: Not found") 404 })

/-- The program answers every request with what its path asks for, whatever the hash, the
order of the parameters and the writer are. -/
theorem respond_main (hasher : Str → SizeT) (order : PartialMap.Enumeration Str Str)
    (accept : Rapidjson.Value → Option Str) (req : H2oReq) :
    Responds hasher order accept req (requested (segments req.request.getPath.bytes)) := by
  have hselect := selectedFor_main_iff hasher req.request.toRequest
  change ∀ s, _ ↔ (requested (segments req.request.getPath.bytes)).target = some s at hselect
  cases hreq : requested (segments req.request.getPath.bytes) with
  | page route params =>
    have hpage := pageFor_requested hreq
    rw [hreq] at hselect
    obtain ⟨hway, hsel⟩ := (hselect route.norm).2 rfl
    obtain ⟨latest, hlast⟩ :=
      exists_lastRegistered hpage.mem (accepted_mainRegistrations route hpage.mem)
    obtain ⟨first, hfirst, -⟩ :=
      handleImpl_at hasher hlast (matchRoute_of_selectedFor hsel hway)
    have hhandlers : ∀ reg ∈ mainRegistrations, reg.handler.isSome = true := by decide
    obtain ⟨handler, hhandler⟩ :=
      Option.isSome_iff_exists.1 (hhandlers first (List.mem_of_find?_eq_some hfirst))
    have hparams : paramsAt hasher mainRegistrations route.norm req.request.toRequest =
        PartialMap.ofList params :=
      congrArg PartialMap.ofList (hpage.bindings_eq hasher)
    have hperm := order.perm params hpage.storable.names
    refine ⟨order.entries (PartialMap.ofList params), hperm, ?_⟩
    rw [respond_of_ok (handleImpl_of_answers (.handler hsel hlast hfirst)), hhandler, hparams]
    change Except.map _ (helloHandleRequest order accept handler req.request req.response _) = _
    rw [helloHandleRequest_eq order accept handler req.request req.response
      (hpage.storable.perm hperm)]
    cases accept (helloDocument req.request (order.entries (PartialMap.ofList params))) with
    | none => rfl
    | some bytes => rfl
  | interior s =>
    rw [hreq] at hselect
    obtain ⟨hway, hsel⟩ := (hselect s).2 rfl
    have hno := lastRegistered_interior s (mem_interiorNodes hreq)
    exact respond_of_error (handleImpl_of_answers (.interior hsel hway hno))
  | missing =>
    rw [hreq] at hselect
    have hnone : ∀ s, OnWay mainRegistrations s →
        ¬ SelectedFor hasher mainRegistrations s req.request.toRequest := by
      intro s hway hsel
      cases (hselect s).1 ⟨hway, hsel⟩
    exact respond_of_ok (handleImpl_of_answers (.notFound hnone))

example : (requested (segments (str "/2024/05"))).target = some monthRoute.norm := by decide

example : (requested (segments (str "/2024"))).target = some [[], paramMarker] := by decide

end Piconaut.Main
