import Piconaut.Lib.GreedyWalk
import Piconaut.Lib.PartialMap
import Piconaut.Lib.PrefixTrie
import Piconaut.Routers.RouteSyntax

/-!
# `piconaut::routers::Router`

The route trie, `AddRoute` and `MatchRoute`.

A `RouterNode` is a trie node: `NodeFields` has its own fields, and the trie
holds `children`.  The source keeps pointers to nodes; here a pointer to a node
is the node's address, the list of map keys that leads to it.  `AddRoute` moves
such a pointer through its loop and updates the tree at it, and `MatchRoute`
returns two of them, one to a node's `key` and one to its `handler`.

The type `Fn` of handler functions is arbitrary.  A `std::function` may be
empty, so a handler is an `Option Fn`.

The mutex, the log output and `PrintRouterTree` are left out.
-/

namespace Piconaut.Routers

open Piconaut.CppStd Piconaut.Utils

variable {Fn : Type}

/-- `size_t`, for hash values. -/
abbrev SizeT := UInt64

/-- `enum class NodeType`. -/
inductive NodeType where
  | kStatic
  | kParameter
  deriving DecidableEq

/-- The fields of a `RouterNode` other than `children`, with the values that
`std::make_unique<RouterNode>()` gives them.  Value-initialization zeroes `key`,
and a default `std::regex` matches nothing. -/
structure NodeFields (Fn : Type) where
  handler : Option Fn := none
  type : NodeType := .kStatic
  paramName : Str := []
  paramRegex : Str → Bool := fun _ => false
  key : SizeT := 0

/-- `struct RouterNode`. -/
abbrev RouterNode (Fn : Type) := PrefixTrie Str (NodeFields Fn)

/-- The address of a node. -/
abbrev Loc := List Str

/-- `class Router`. -/
structure Router (Fn : Type) where
  root : RouterNode Fn

/-- `Router::Router()`. -/
def Router.init : Router Fn := ⟨PrefixTrie.leaf {}⟩

/-! ## `AddRoute` -/

/-- What `AddRoute` writes to a node it passes through with `part`. -/
def passThrough (part : Str) (node : NodeFields Fn) : NodeFields Fn :=
  if normalizePart part = paramMarker then
    { node with paramName := innerText part, paramRegex := matchesParamRegex,
                type := .kParameter }
  else
    { node with type := .kStatic }

/-- One iteration of the loop of `AddRoute` over the parts: find or create the
child, move the node pointer to it, write its parameter fields. -/
def addRoutePart (state : RouterNode Fn × Loc) (part : Str) : RouterNode Fn × Loc :=
  let normalizedPart := normalizePart part
  let child := state.2 ++ [normalizedPart]
  let root :=
    if (state.1.sub? child).isNone then
      state.1.insertChild state.2 normalizedPart (PrefixTrie.leaf {})
    else state.1
  (root.modify child (passThrough part), child)

/-- `Router::AddRoute`.  The result is what the call throws, if anything, and
the router it leaves behind. -/
def Router.addRoute (router : Router Fn) (key : SizeT) (path : StdString)
    (handler : Option Fn) : Except StdException Unit × Router Fn :=
  if !isValidRoute path.bytes then
    (.error (.invalidArgument (str "Invalid route pattern: " ++ path.bytes)), router)
  else
    let cleaned := splitStringCallback path (ch '/')
      (fun parts part => parts ++ [removeSpacesRef part]) []
    match cleaned with
    | .error e => (.error e, router)
    | .ok parts =>
      -- ensure at least one part is present
      let endpointParts := if parts.isEmpty then [[]] else parts
      let (root, node) := endpointParts.foldl addRoutePart (router.root, [])
      (.ok (), ⟨root.modify node fun d => { d with key := key, handler := handler }⟩)

/-- The arguments of one `AddRoute` call. -/
structure AddRouteCall (Fn : Type) where
  key : SizeT
  path : StdString
  handler : Option Fn

namespace AddRouteCall

/-- The call is accepted: its path is a valid route. -/
def accepted (c : AddRouteCall Fn) : Bool := isValidRoute c.path.bytes

/-- The parts of the call's pattern. -/
def segments (c : AddRouteCall Fn) : List Str := Routers.segments c.path.bytes

/-- The normalized form of the call's pattern. -/
def norm (c : AddRouteCall Fn) : Loc := Routers.norm c.path.bytes

end AddRouteCall

/-- The state that a call leaves behind, thrown or not. -/
def Router.afterCall (router : Router Fn) (c : AddRouteCall Fn) : Router Fn :=
  (router.addRoute c.key c.path c.handler).2

/-- A fresh router after a sequence of `AddRoute` calls. -/
def runCalls (calls : List (AddRouteCall Fn)) : Router Fn :=
  calls.foldl Router.afterCall Router.init

/-! ## `MatchRoute` -/

/-- The parameters that a match delivers. -/
abbrev Params := PartialMap Str Str

/-- `struct RouterMatchResult`: a pointer to the `key` and one to the `handler`
of a node, both null in an empty result. -/
structure RouterMatchResult where
  key : Option Loc
  executor : Option Loc
  deriving DecidableEq

/-- `RouterMatchResult::IsEmpty`. -/
def RouterMatchResult.isEmpty (result : RouterMatchResult) : Bool :=
  result.executor.isNone

/-- The result that points into the node at `loc`. -/
def RouterMatchResult.at (loc : Loc) : RouterMatchResult := ⟨some loc, some loc⟩

/-- `RouterMatchResult(nullptr, nullptr)`. -/
def RouterMatchResult.null : RouterMatchResult := ⟨none, none⟩

/-- The child that `children.find(key)` yields, when its type is `type`. -/
def RouterNode.findChild (node : RouterNode Fn) (key : Str) (type : NodeType) :
    Option (RouterNode Fn) :=
  (node.children key).filter fun child => child.data.type = type

/-- The loop of `MatchRoute` over the parts of the request.  The node pointer is
the node and its address. -/
def matchParts : List Str → RouterNode Fn → Loc → Params → RouterMatchResult × Params
  | [], _, loc, params => (.at loc, params)
  | part :: parts, node, loc, params =>
    match RouterNode.findChild node part .kStatic with
    | some child => matchParts parts child (loc ++ [part]) params
    | none =>
      match RouterNode.findChild node paramMarker .kParameter with
      | some child =>
        if child.data.paramRegex part then
          matchParts parts child (loc ++ [paramMarker])
            (params.insert child.data.paramName part)
        else (.null, params)
      | none => (.null, params)

/-- `Router::MatchRoute`: the result, and the parameter map it leaves behind. -/
def Router.matchRoute (router : Router Fn) (path : StdString) (params : Params) :
    Except StdException (RouterMatchResult × Params) := do
  let endpointParts ← splitString path (ch '/')
  return matchParts endpointParts router.root [] params

/-- `MatchRoute` never throws. -/
theorem Router.matchRoute_eq (router : Router Fn) (path : StdString) (params : Params) :
    router.matchRoute path params =
      .ok (matchParts (segments path.bytes) router.root [] params) := by
  rw [Router.matchRoute, splitString_eq]
  rfl

/-- The whole outcome of a match, from its result. -/
theorem Router.matchRoute_of_fst (router : Router Fn) {path : StdString} {params : Params}
    {result : RouterMatchResult}
    (h : (matchParts (segments path.bytes) router.root [] params).1 = result) :
    router.matchRoute path params =
      .ok (result, (matchParts (segments path.bytes) router.root [] params).2) := by
  rw [Router.matchRoute_eq, ← h]

end Piconaut.Routers
