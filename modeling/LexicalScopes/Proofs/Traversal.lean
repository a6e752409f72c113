import LexicalScopes.Proofs.Samples
import LexicalScopes.Proofs.Traversal.Occurrences

/-!
# A traversal is a recursive walk

The traversal keeps a stack of open paths and asks for their children one at a time. Whatever the
visitor does, it makes the calls of the recursive walk: it ends in the same state or with the same
fault, and its calls are the events of the tree, or those up to the fault.
-/

namespace LexicalScopes

variable {σ : Type}

/-! ## Noted calls -/

/-- A hook that also notes each call. A call that fails is noted, too. -/
def noted (call : Path → Event) (hook : Path → EStateM Cause σ Unit) (p : Path) :
    EStateM Cause (List Event × σ) Unit := fun (calls, s) =>
  match hook p s with
  | .ok u s => .ok u (calls ++ [call p], s)
  | .error fault s => .error fault (calls ++ [call p], s)

/-- The visitor, with its calls noted. -/
def Visitor.noting (v : Visitor σ) : Visitor (List Event × σ) :=
  ⟨noted .enter v.enter, noted .exit v.exit⟩

/-- The second result is the first one with the calls noted that led to it: after `calls`, all of
`events` if there was no fault, otherwise a beginning of them. -/
inductive Notes (calls events : List Event) :
    EStateM.Result Cause σ Unit → EStateM.Result Cause (List Event × σ) Unit → Prop where
  | ok (u : Unit) (s : σ) : Notes calls events (.ok u s) (.ok u (calls ++ events, s))
  | error {made : List Event} (fault : Cause) (s : σ) (h : made <+: events) :
      Notes calls events (.error fault s) (.error fault (calls ++ made, s))

namespace Notes

variable {calls events more : List Event} {s : σ}
  {x : EStateM Cause σ Unit} {y : EStateM Cause (List Event × σ) Unit}
  {f : Unit → EStateM Cause σ Unit} {g : Unit → EStateM Cause (List Event × σ) Unit}

/-- The calls of steps in a row are made in a row. -/
theorem bind (h : Notes calls events (x s) (y (calls, s)))
    (hfg : ∀ s, Notes (calls ++ events) more (f () s) (g () (calls ++ events, s))) :
    Notes calls (events ++ more) ((x >>= f) s) ((y >>= g) (calls, s)) := by
  generalize hx : x s = r, hy : y (calls, s) = r' at h
  cases h with
  | ok u s₁ =>
    rw [bind_of_ok hx, bind_of_ok hy]
    generalize hf : f u s₁ = r, hg : g u (calls ++ events, s₁) = r'
    have hnext := hfg s₁
    rw [hf, hg] at hnext
    cases hnext with
    | ok u s₂ =>
      rw [List.append_assoc]
      exact .ok u s₂
    | error fault s₂ hmade =>
      rw [List.append_assoc]
      exact .error fault s₂ ((List.prefix_append_right_inj events).2 hmade)
  | error fault s₁ hmade =>
    rw [bind_of_error hx, bind_of_error hy]
    exact .error fault s₁ (hmade.trans (List.prefix_append events more))

end Notes

theorem notes_noted (call : Path → Event) (hook : Path → EStateM Cause σ Unit) (p : Path)
    (calls : List Event) (s : σ) :
    Notes calls [call p] (hook p s) (noted call hook p (calls, s)) := by
  unfold noted
  dsimp only
  cases hook p s with
  | ok u s₁ => exact .ok u s₁
  | error fault s₁ => exact .error fault s₁ List.prefix_rfl

variable {calls : List Event} {s : σ}

namespace Visitor

theorem notes_walkAll (v : Visitor σ) {ps : List Path}
    (hwalk : ∀ p ∈ ps, ∀ calls s, Notes calls p.events (v.walk p s) (v.noting.walk p (calls, s)))
    (calls : List Event) (s : σ) :
    Notes calls (Path.allEvents ps) (v.walkAll (.ok ps) s)
      (v.noting.walkAll (.ok ps) (calls, s)) := by
  induction ps generalizing calls s with
  | nil =>
    have h : Notes calls [] (.ok () s) (.ok () (calls ++ [], s)) := .ok () s
    rw [List.append_nil] at h
    exact h
  | cons p ps ih =>
    obtain ⟨hp, hps⟩ := List.forall_mem_cons.1 hwalk
    rw [walkAll_cons, walkAll_cons, Path.allEvents_cons]
    exact (hp calls s).bind fun s => ih hps _ s

/-- The calls of a walk are the events of the node. -/
theorem notes_walk (v : Visitor σ) (p : Path) (calls : List Event) (s : σ) :
    Notes calls p.events (v.walk p s) (v.noting.walk p (calls, s)) := by
  induction p using Path.induction_on_kids generalizing calls s with
  | step p ih =>
    have hexit (calls : List Event) (s : σ) :
        Notes calls [.exit p] (v.exit p s) (v.noting.exit p (calls, s)) :=
      notes_noted .exit v.exit p calls s
    rw [walk_eq, walk_eq, Path.events_eq]
    refine (notes_noted .enter v.enter p calls s).bind fun s => ?_
    cases hcs : p.children with
    | ok cs =>
      rw [Path.kids_of_children hcs] at ih ⊢
      exact (v.notes_walkAll ih _ s).bind fun s => hexit _ s
    | error fault =>
      -- The listing fails before any child is entered.
      have h : Notes (calls ++ [.enter p]) (Path.allEvents p.kids ++ [.exit p])
          (.error fault s) (.error fault (calls ++ [.enter p] ++ [], s)) :=
        .error fault s List.nil_prefix
      rw [List.append_nil] at h
      exact h

end Visitor

/-! ## Traversals -/

/-- A traversal ends like the recursive walk, whatever its visitor does, and makes the same calls.
They are the events of the tree, up to the first fault: every node is entered, its children are
walked in order, and it is left. Every occurrence of a node is entered and left, once each if no
object names a field twice, and the calls are in brackets. -/
theorem traverse_eq_walk (v : Visitor σ) (root : Node) (s : σ) :
    v.traverse root s = v.walk (.root root) s ∧
      v.noting.traverse root ([], s) = v.noting.walk (.root root) ([], s) ∧
      Notes [] (Path.root root).events (v.traverse root s) (v.noting.traverse root ([], s)) ∧
      Bracketed (Path.root root).events ∧
      (∀ p, (.enter p ∈ (Path.root root).events ↔ p ∈ .root root :: (Path.root root).descendants) ∧
        (.exit p ∈ (Path.root root).events ↔ p ∈ .root root :: (Path.root root).descendants)) ∧
      ((∀ n ∈ (Json.object root).objects, (n.map (·.1)).Nodup) →
        (Path.root root).events.Nodup) := by
  have hwalk (τ : Type) (v : Visitor τ) : v.traverse root = v.walk (.root root) :=
    v.traverse_eq root
  refine ⟨congrFun (hwalk σ v) s, congrFun (hwalk _ v.noting) ([], s), ?_,
    Path.bracketed_events _, fun p => ⟨Path.mem_events_iff, Path.mem_events_iff⟩,
    fun h => Path.nodup_events h⟩
  rw [hwalk, hwalk]
  exact v.notes_walk (.root root) [] s

/-- A program with a node of an unknown type, which holds a list with a hole and a number in it. -/
def looseProgram : Node :=
  Sample.program 9
    [[("type", .string "Loose"), ("first", .object (Sample.identifier "a" 0)), ("extra", .int 1),
      ("rest", .array [.null, .object (Sample.identifier "b" 2), .int 3,
        .object (Sample.node "ThisExpression" 4 8 [])])]]

/-- A visitor that counts its calls and cannot enter `this`. -/
def countUpToThis : Visitor Nat where
  enter p :=
    if p.node.isAny ["ThisExpression"] then throw (.misread (.method .null "get"))
    else modify (· + 1)
  exit _ := modify (· + 1)

theorem traverse_eq_walk_looseProgram :
    countUpToThis.traverse looseProgram 0 = countUpToThis.walk (.root looseProgram) 0 ∧
      (∀ n ∈ (Json.object looseProgram).objects, (n.map (·.1)).Nodup) ∧
      (Path.root looseProgram).events.Nodup := by
  obtain ⟨hsame, -, -, -, -, hnodup⟩ := traverse_eq_walk countUpToThis looseProgram 0
  have hdistinct : ∀ n ∈ (Json.object looseProgram).objects, (n.map (·.1)).Nodup := by
    decide +kernel
  exact ⟨hsame, hdistinct, hnodup hdistinct⟩

end LexicalScopes
