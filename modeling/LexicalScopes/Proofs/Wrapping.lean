import LexicalScopes.Proofs.Samples
import LexicalScopes.Proofs.Wrapping.Ranges

/-!
# The wrappers of a reference

The wrappers of a path are the longest run of ancestors that hold it in an idiom, one wrapper for
each of them. If the nodes of the tree lie inside one another, the ranges of the wrappers grow
outwards.
-/

namespace LexicalScopes

variable {p : Path} {ws : List Wrapper}

/-! ## The longest run -/

/-- The run of shown ancestors begins with the parent and is not interrupted. -/
theorem Hold.Run.forall₂_take {holds : List Hold} (h : Hold.Run holds ws) :
    List.Forall₂ (fun s w => ∃ f, s.Has f ∧ f.Shows s.holder w) (holds.take ws.length) ws := by
  induction h with
  | done _ => exact .nil
  | step hhas hw _ ih => exact .cons ⟨_, hhas, hw⟩ ih

/-- It goes on as long as there are idioms. -/
theorem Hold.Run.not_has_of_getElem? {holds : List Hold} (h : Hold.Run holds ws) {s : Hold}
    (hs : holds[ws.length]? = some s) (f : Idiom) : ¬ s.Has f := by
  induction h with
  | done hend =>
    rw [List.length_nil, ← List.head?_eq_getElem?] at hs
    exact hend s hs f
  | step _ _ _ ih => exact ih (by simpa using hs)

/-- A node holds a value in one idiom at most. Where the wrappers of a path can be told, each of
the ancestors from the parent outwards, as many as there are wrappers, holds the next one inwards in
an idiom and is shown with it, with its property and with its range, and the ancestor after them
does not hold anything in an idiom. -/
theorem Path.wrappers_maximal (h : p.wrappers = .ok ws) :
    (∀ (s : Hold) (f g : Idiom), s.Has f → s.Has g → f = g) ∧
      List.Forall₂ (fun s w => ∃ f, s.Has f ∧ f.Shows s.holder w) (p.holds.take ws.length) ws ∧
      ∀ s, p.holds[ws.length]? = some s → ∀ f, ¬ s.Has f := by
  have hrun := run_of_wrappers h
  exact ⟨fun _ _ _ => Hold.Has.unique, hrun.forall₂_take, fun _ => hrun.not_has_of_getElem?⟩

namespace Sample

/-- An access with a dot. -/
def access (start : Nat) (object : Node) (property : String) (column : Nat) : Node :=
  node "MemberExpression" start (column + property.length)
    [("object", .object object), ("property", .object (identifier property column))]

/-- `(0, a.b)()`, from the parenthesis in column 7 on. -/
def calledPair : Node :=
  node "CallExpression" 7 17
    [("callee", .object (node "SequenceExpression" 8 14 [("expressions", list
        [node "NumericLiteral" 8 9 [("value", .int 0)], access 11 (identifier "a" 11) "b" 13])])),
      ("arguments", .array [])]

/-- `Object((0, a.b)()).c` -/
def wrappedProgram : Node :=
  program 20 [node "ExpressionStatement" 0 20 [("expression", .object (access 0
    (node "CallExpression" 0 18
      [("callee", .object (identifier "Object" 0)), ("arguments", list [calledPair])]) "c" 19))]]

/-- The path to `a`. -/
def wrappedRead : Path :=
  (Path.root wrappedProgram).descendants.find? (fun p => p.node.get "name" == .string "a")
    |>.getD (.root wrappedProgram)

end Sample

open Sample in
theorem Sample.wrappers_wrappedRead : wrappedRead.wrappers = .ok
    [⟨.member (.string "b"), place 11, place 14⟩, ⟨.inherit, place 7, place 15⟩,
      ⟨.call, place 7, place 17⟩, ⟨.inherit, place 0, place 18⟩,
      ⟨.member (.string "c"), place 0, place 20⟩] := eq_ok_of_toOption (by decide +kernel)

theorem Path.wrappers_maximal_wrappedRead :
    ∃ ws, Sample.wrappedRead.wrappers = .ok ws ∧ ws.length = 5 ∧
      List.Forall₂ (fun s w => ∃ f, s.Has f ∧ f.Shows s.holder w)
        (Sample.wrappedRead.holds.take ws.length) ws ∧
      ∀ s, Sample.wrappedRead.holds[ws.length]? = some s → ∀ f, ¬ s.Has f := by
  have hlength : Sample.wrappedRead.wrappers.toOption.map List.length = some 5 := by
    decide +kernel
  obtain ⟨ws, hws, hlength⟩ := Option.map_eq_some_iff.1 hlength
  have h := eq_ok_of_toOption hws
  exact ⟨ws, h, hlength, (Path.wrappers_maximal h).2⟩

/-! ## Growing ranges -/

/-- In a tree whose nodes lie inside one another, with room for a parenthesis behind every called
pair, the range of each wrapper encloses that of the wrapper before it, and the range of the first
one that of the node itself. -/
theorem Path.isChain_encloses_of_wrappers {root : Node} (hroot : root.Nested)
    (hp : p ∈ .root root :: (Path.root root).descendants) (h : p.wrappers = .ok ws) :
    ∃ range wrappings, p.node.range = .ok range ∧ ws.mapM Wrapper.toWrapping = .ok wrappings ∧
      List.IsChain (fun inner outer => outer.encloses inner = .ok true)
        (range :: wrappings.map (·.range)) := by
  have hnested : p.NestedIn root := ⟨hroot, hp⟩
  obtain ⟨range, hrange⟩ := hnested.exists_range
  obtain ⟨wrappings, hwrappings, hchain⟩ :=
    Spans.isChain_of_run hnested (.own hrange) (run_of_wrappers h)
  exact ⟨range, wrappings, hrange, hwrappings, hchain⟩

theorem Path.isChain_encloses_wrappedRead :
    Sample.wrappedProgram.Nested ∧
      Sample.wrappedRead ∈
        .root Sample.wrappedProgram :: (Path.root Sample.wrappedProgram).descendants ∧
      ∃ ws range wrappings, Sample.wrappedRead.wrappers = .ok ws ∧
        Sample.wrappedRead.node.range = .ok range ∧
        ws.mapM Wrapper.toWrapping = .ok wrappings ∧
        List.IsChain (fun inner outer => outer.encloses inner = .ok true)
          (range :: wrappings.map (·.range)) := by
  have hnested : Sample.wrappedProgram.Nested := by decide +kernel
  have hmem : Sample.wrappedRead ∈
      .root Sample.wrappedProgram :: (Path.root Sample.wrappedProgram).descendants := by
    have hfound : ((Path.root Sample.wrappedProgram).descendants.find?
        (fun p => p.node.get "name" == .string "a")).isSome = true := by decide +kernel
    obtain ⟨q, hq⟩ := Option.isSome_iff_exists.1 hfound
    rw [Sample.wrappedRead, hq]
    exact List.mem_cons_of_mem _ (List.mem_of_find?_eq_some hq)
  obtain ⟨ws, hws⟩ := exists_eq_ok (e := Sample.wrappedRead.wrappers) (by decide +kernel)
  obtain ⟨range, wrappings, h⟩ := Path.isChain_encloses_of_wrappers hnested hmem hws
  exact ⟨hnested, hmem, ws, range, wrappings, hws, h⟩

end LexicalScopes
