import LexicalScopes.Proofs.Cursor
import LexicalScopes.Proofs.Run.Bound
import LexicalScopes.Proofs.Run.Home
import LexicalScopes.Proofs.Shape.Shown

/-!
# The receiver

A function that is not an arrow function, the value of a class field and the module layer introduce
`this`. Unless the source declares this name, every `this` is therefore read at the binding of the
nearest of these, and that binding has no declarations.
-/

namespace LexicalScopes

/-- The name of the receiver. -/
abbrev receiverName : Scalar := .string "this"

/-- Functions with a receiver of their own: all but arrow functions. -/
def NodeType.receivers : List String :=
  ["FunctionDeclaration", "FunctionExpression", "ObjectMethod", "ClassMethod", "ClassPrivateMethod"]

/-- No node declares the name of the receiver. -/
def Node.LeavesReceiver (root : Node) : Prop :=
  ∀ p ∈ .root root :: (Path.root root).descendants, ∀ bound ∈ p.declaredNames,
    bound.name.key ≠ receiverName.key

instance (root : Node) : Decidable root.LeavesReceiver :=
  inferInstanceAs (Decidable (∀ p ∈ .root root :: (Path.root root).descendants,
    ∀ bound ∈ p.declaredNames, bound.name.key ≠ receiverName.key))

/-! ## Actions -/

namespace Action

/-- The action introduces the receiver. -/
def IntroducesReceiver (a : Action) : Prop := ∃ names, a = .introduce names ∧ "this" ∈ names

/-- The action does not go back, introduces nothing and does not declare the receiver. -/
structure KeepsReceiver (a : Action) : Prop where
  place : a = .mark ∨ a.isPlain = true
  introduces : ∀ names, a ≠ .introduce names
  declares : ∀ bound, a.declared? = some bound → bound.name.key ≠ receiverName.key

end Action

/-- The scope binds the receiver. -/
def Graph.bindsReceiver (g : Graph) (s : ScopeId) : Bool := g.binds s receiverName

namespace Builder

variable {b b' : Builder} {a : Action} {s : ScopeId}

/-- Scopes bind the receiver after an action exactly if they did so before. -/
theorem Does.bindsReceiver_eq (h : Does b a b') (hb : b.Sound) (ha : a.KeepsReceiver) :
    b'.graph.bindsReceiver s = b.graph.bindsReceiver s := by
  rw [Bool.eq_iff_iff]
  constructor
  · intro hbinds
    rcases h.binds hb hbinds with hold | ⟨bound, hbound, hkey⟩ | ⟨-, names, hnames⟩
    · exact hold
    · exact absurd hkey (ha.declares bound hbound)
    · exact absurd hnames (ha.introduces names)
  · exact (Graph.Steps.grows (h.sound hb).1 hb.valid).binds

theorem settles_receiver :
    Settles Graph.bindsReceiver Action.IntroducesReceiver Action.KeepsReceiver where
  makes {b a b'} hb hdoes ha := by
    obtain ⟨names, rfl, hnames⟩ := ha
    cases hdoes with
    | @introduce s hs names =>
      have hbinds := Graph.binds_declareImplicit_of_mem hb.valid (hb.current_lt s hs) hnames
      rw [nearest, around]
      simp only [hs, Graph.chain, Graph.chainFrom, List.find?_cons, Graph.bindsReceiver, hbinds]
  keeps {b a b'} hb hdoes ha := by
    rcases ha.place with rfl | hplain
    · cases hdoes
      rfl
    cases hopens : a.opens with
    | false =>
      have haround := hdoes.around_of_isPlain hplain hb
      rw [hopens] at haround
      exact nearest_congr haround fun s _ => hdoes.bindsReceiver_eq hb ha
    | true =>
      -- A new scope binds nothing yet.
      have hnew : b.graph.bindsReceiver b.graph.nextScope = false := by
        rw [Graph.bindsReceiver, Graph.binds, Graph.find?_of_le (Nat.le_refl _)]
        rfl
      have hkeeps : ∀ type name loc, (b.openScope type name loc).nearest Graph.bindsReceiver =
          b.nearest Graph.bindsReceiver := by
        intro type name loc
        have hsame : ∀ s, (b.openScope type name loc).graph.bindsReceiver s =
            b.graph.bindsReceiver s := fun s => binds_openScope
        rw [nearest_openScope hb type name loc fun s _ => hsame s, hsame, hnew]
        rfl
      cases hdoes with
      | openRoot loc => exact hkeeps _ _ loc
      | openScope type name loc => exact hkeeps type name loc
      | _ => cases hopens

end Builder

/-! ## Nodes -/

section Nodes

variable {root : Node} {p : Path} {actions : List Action}

/-- By its role only a program, a function or a class field introduces names. -/
theorem ne_introduce_of_roleActions (h : p.roleActions = .ok actions)
    (hprogram : p.node.role? ≠ some .program) (hfunction : p.node.role? ≠ some .function)
    (hfield : p.node.role? ≠ some .classField) (hp : p.isProgram = false) :
    ∀ a ∈ actions, ∀ names, a ≠ .introduce names := by
  -- Handlers that look at the node alone do the same at the root of a tree.
  have hroot : ∀ {actions : List Action}, (∀ a ∈ actions, (Path.root p.node).Performs a) →
      ∀ a ∈ actions, ∀ names, a ≠ .introduce names := by
    rintro actions hperforms a ha names rfl
    cases hperforms _ ha with
    | introduce hplace names =>
      rcases hplace with hplace | hplace | hplace | hplace | hplace
      · exact Bool.false_ne_true (hp.symm.trans hplace)
      · cases hplace
      · exact hprogram hplace
      · exact hfunction hplace
      · exact hfield hplace
  unfold Path.roleActions at h
  cases hrole : p.node.role? with
  | none =>
    simp only [hrole] at h
    cases h
    simp
  | some r =>
    simp only [hrole] at h
    cases r with
    | program => exact absurd hrole hprogram
    | function => exact absurd hrole hfunction
    | classScope => exact hroot (performs_classActions hrole h)
    | loop => exact hroot (performs_loopActions hrole h)
    | catchClause => exact hroot (performs_catchActions hrole h)
    | block =>
      cases hbody : p.isChildOf NodeType.functions "body" with
      | true =>
        simp only [hbody, if_true] at h
        cases h
        simp
      | false =>
        simp only [hbody] at h
        exact hroot (performs_blockActions h)
    | switch => exact hroot (performs_switchActions h)
    | classField => exact absurd hrole hfield
    | «variables» => exact hroot (performs_variableActions hrole h)
    | imports => exact hroot (performs_importActions hrole h)
    | exports =>
      cases h
      simp
    | identifier =>
      have h : p.identifierActions = .ok actions := h
      unfold Path.identifierActions at h
      split at h
      · obtain ⟨name, -, h⟩ := bind_eq_ok.1 h
        cases h
        simp
      · cases h
        simp
    | this =>
      cases h
      simp

/-- An arrow function introduces nothing. -/
theorem ne_introduce_of_arrow (harrow : p.node.isAny ["ArrowFunctionExpression"] = true)
    (h : p.functionActions = .ok actions) : ∀ a ∈ actions, ∀ names, a ≠ .introduce names := by
  obtain ⟨own, hown, h⟩ := bind_eq_ok.1 h
  obtain ⟨name, -, h⟩ := bind_eq_ok.1 h
  obtain ⟨range, -, h⟩ := bind_eq_ok.1 h
  obtain ⟨params, hparams, h⟩ := bind_eq_ok.1 h
  obtain ⟨entries, -, hparams⟩ := bind_eq_ok.1 hparams
  obtain ⟨declared, hdeclared, hparams⟩ := bind_eq_ok.1 hparams
  cases h
  cases hparams
  rw [if_pos harrow, List.append_nil]
  intro a ha
  rcases List.mem_append.1 ha with ha | ha
  · exact ne_introduce_of_ownNameActions hown a ha
  rcases List.mem_cons.1 ha with rfl | ha
  · simp
  · obtain ⟨actions, hactions, ha⟩ := List.mem_flatten.1 ha
    obtain ⟨param, -, hparam⟩ := exists_of_mem_mapM hdeclared hactions
    obtain ⟨bound, rfl, -⟩ := exists_of_declareTarget hparam ha
    simp

/-- All functions but arrow functions introduce the receiver in their own scope. -/
theorem makes_functionActions (harrow : p.node.isAny ["ArrowFunctionExpression"] = false)
    (h : p.functionActions = .ok actions) :
    ∃ k, actions.countP Action.opens = k + 1 ∧
      Builder.Makes Action.IntroducesReceiver Action.KeepsReceiver actions k := by
  obtain ⟨headings, -, hopens⟩ := opens_functionActions h
  have hplain := hopens.plain
  obtain ⟨own, hown, h⟩ := bind_eq_ok.1 h
  obtain ⟨name, -, h⟩ := bind_eq_ok.1 h
  obtain ⟨range, -, h⟩ := bind_eq_ok.1 h
  obtain ⟨params, hparams, h⟩ := bind_eq_ok.1 h
  obtain ⟨entries, -, hparams⟩ := bind_eq_ok.1 hparams
  obtain ⟨declared, hdeclared, hparams⟩ := bind_eq_ok.1 hparams
  cases h
  cases hparams
  rw [if_neg (Bool.eq_false_iff.1 harrow)] at hplain ⊢
  set actions := own ++ .openScope .function name range :: (declared.flatten ++
    [.introduce ["this", "arguments"]]) with hactions
  have hsplit : (own ++ .openScope .function name range :: declared.flatten) ++
      [.introduce ["this", "arguments"]] = actions := by simp [hactions]
  have hpos : actions.countP Action.opens ≠ 0 := by
    simp [hactions, List.countP_append, List.countP_cons, Action.opens]
  obtain ⟨k, hk⟩ := Nat.exists_eq_succ_of_ne_zero hpos
  refine ⟨k, hk, own ++ .openScope .function name range :: declared.flatten,
    .introduce ["this", "arguments"], [], hsplit.symm, ⟨_, rfl, by simp⟩, by simp, ?_, ?_⟩
  · rwa [hsplit]
  · rwa [hsplit]

/-- The nearest receiver is that of the nearest program, function other than an arrow function or
value of a class field. -/
theorem houses_receiver (halias : p.node.isAny NodeType.aliases = false)
    (hleaves : ∀ bound ∈ p.declaredNames, bound.name.key ≠ receiverName.key) :
    Builder.Houses NodeType.receivers Action.IntroducesReceiver Action.KeepsReceiver p where
  mark := ⟨.inl rfl, by simp, by simp [Action.declared?]⟩
  program actions _ h := by
    obtain ⟨loc, -, h⟩ := bind_eq_ok.1 h
    cases h
    refine ⟨2, rfl, [.openRoot (.object loc), .introduce Graph.hostNames,
      .openScope .block (.string "Lexical Global") (.object loc),
      .openScope .moduleLayer (.string "Module") (.object loc)], .introduce ["this"], [], rfl,
      ⟨_, rfl, by simp⟩, by simp, by simp [Action.isPlain], rfl⟩
  function actions hfunction h := by
    rw [Path.roleActions, Node.role?_of_isAny (r := .function) (by decide) hfunction] at h
    exact makes_functionActions (Node.isAny_eq_false hfunction (by decide)) h
  field actions h := by
    obtain ⟨loc, -, h⟩ := bind_eq_ok.1 h
    cases h
    exact ⟨[.openScope .function (.string "Class Field") (.object loc)],
      .introduce ["this", "arguments"], [], rfl, ⟨_, rfl, by simp⟩, by simp,
      by simp [Action.isPlain], rfl⟩
  other actions hprogram hfunction h hmem := by
    have hplain : ∀ a ∈ actions, a.isPlain = true := by
      obtain ⟨headings, hcontributes⟩ := contributes_roleActions h
      exact hcontributes.opens.plain
    have hnone : ∀ a ∈ actions, ∀ names, a ≠ .introduce names := by
      -- Without aliases only an arrow function is left of the nodes that introduce names.
      have hrole : ∀ r, p.node.role? = some r → ∀ types,
          (∀ x ∈ Role.table, x.2 = r → x.1 ∈ types ++ NodeType.aliases) →
            p.node.isAny types = true := by
        intro r hr types htable
        have hany := Node.isAny_of_role? _ htable hr
        rwa [Node.isAny_append, halias, Bool.or_false] at hany
      by_cases harrow : p.node.isAny ["ArrowFunctionExpression"] = true
      · rw [Path.roleActions, Node.role?_of_isAny (r := .function) (by decide) harrow] at h
        exact ne_introduce_of_arrow harrow h
      · refine ne_introduce_of_roleActions h ?_ ?_ ?_ hprogram
        · intro hr
          exact absurd (hrole _ hr [] (by decide)) (by simp [Node.isAny_iff])
        · intro hr
          have hany := hrole _ hr (["ArrowFunctionExpression"] ++ NodeType.receivers) (by decide)
          rw [Node.isAny_append, hfunction, Bool.or_false] at hany
          exact harrow hany
        · intro hr
          exact absurd (hrole _ hr [] (by decide)) (by simp [Node.isAny_iff])
    intro a ha
    refine ⟨.inr (hplain a ha), hnone a ha, fun bound hbound => hleaves bound ?_⟩
    exact List.mem_filterMap.2 ⟨a, hmem a ha, hbound⟩

end Nodes

/-! ## Bindings of the receiver -/

/-- Wherever the receiver is bound, its binding is implicit and has no declarations. -/
def Graph.PristineReceiver (g : Graph) : Prop :=
  ∀ s e, g.find? s receiverName = some e →
    (g.entry e).kind = .implicit ∧ (g.entry e).declarations = []

namespace Builder

variable {b b' : Builder} {a : Action} {actions : List Action}

theorem Does.pristine (h : Does b a b') (hb : b.Sound)
    (ha : ∀ bound, a.declared? = some bound → bound.name.key ≠ receiverName.key)
    (hpristine : b.graph.PristineReceiver) : b'.graph.PristineReceiver := by
  intro s e hfind
  obtain ⟨hsteps, hb'⟩ := h.sound hb
  have hgrows := Graph.Steps.grows hsteps hb.valid
  constructor
  · rcases h.find?_cases hb hfind with hold | ⟨name, kind, hgives, hkey, hkind⟩
    · rw [hgrows.kind e (hb.valid.owns.lt_of_find? s receiverName e hold)]
      exact (hpristine s e hold).1
    · cases hgives with
      | declare hs bound kind => exact absurd hkey.symm (ha bound rfl)
      | hoist hs bound => exact absurd hkey.symm (ha bound rfl)
      | declareFunction hs bound => exact absurd hkey.symm (ha bound rfl)
      | introduce hs hname => exact hkind
  · -- The binding has had no declarations, and the action declares another name.
    have hbefore : (b.graph.entry e).declarations = [] := by
      rcases Nat.lt_or_ge e b.graph.entries.size with hlt | hge
      · exact (hpristine s e (hgrows.find?_of_lt hb.valid.owns hb'.valid.owns hlt hfind)).2
      · rw [Graph.entry_of_le hge]
        rfl
    generalize hdeclared : a.declared? = declared at ha
    have hrecords := h.records hb
    rw [hdeclared] at hrecords
    cases hrecords with
    | nothing hsame => rw [hsame, hbefore]
    | @one t e' bound hbound hadds =>
      have hne : e ≠ e' := by
        rintro rfl
        exact ha bound rfl (hb'.valid.owns.find?_inj t s _ _ e hbound hfind).2
      rw [hadds, if_neg hne, hbefore, List.append_nil]

theorem pristine_replay (h : b.replay actions = .ok b') (hb : b.Sound)
    (hactions : ∀ a ∈ actions, ∀ bound, a.declared? = some bound →
      bound.name.key ≠ receiverName.key)
    (hpristine : b.graph.PristineReceiver) : b'.graph.PristineReceiver := by
  induction actions generalizing b with
  | nil =>
    cases h
    exact hpristine
  | cons a actions ih =>
    obtain ⟨b₁, hdoes, hrest⟩ := replay_cons_cases h
    exact ih hrest (hdoes.sound hb).2 (fun a' ha' => hactions a' (List.mem_cons_of_mem _ ha'))
      (hdoes.pristine hb (hactions a List.mem_cons_self) hpristine)

theorem pristine_of_collect {root : Node} {final : Builder}
    (hfinal : collect (.object root) = .ok final) (hleaves : root.LeavesReceiver) :
    final.graph.PristineReceiver := by
  refine run_induction (P := fun _ b => b.graph.PristineReceiver) (ofTree_of_collect hfinal).2
    ?_ ?_ ?_
  · intro s e hfind
    rw [Graph.find?_of_le (Nat.zero_le s)] at hfind
    cases hfind
  · intro past around p before after hvisit hpasses hbefore
    refine pristine_replay hpasses.run_enter hpasses.sound_before ?_ hbefore
    intro a ha bound hbound
    exact hleaves p hvisit.mem_descendants bound (List.mem_filterMap.2 ⟨a, ha, hbound⟩)
  · intro past p b b' hgraph hb
    rwa [Graph.PristineReceiver, hgraph]

end Builder

/-! ## Reads of the receiver -/

section Reads

variable {root : Node} {past : List Event} {around : List ScopeId} {home : Option ScopeId}
  {p : Path} {before after final : Builder} {generated : Bool} {tree : Scope}

/-- The nearest scope that binds the receiver is the home of the node. -/
theorem Housed.nearest_receiver (h : Housed root NodeType.receivers past home p)
    (hsole : root.SoleProgram) (halias : root.AliasFree) (hleaves : root.LeavesReceiver)
    (hpasses : Passes past p before after final) :
    after.nearest Graph.bindsReceiver = home := by
  refine h.nearest_after hsole hpasses Builder.settles_receiver
    (fun q hq => houses_receiver (halias q hq) (hleaves q hq)) ?_
  intro events b b' henters hb hrun s hs
  rw [Bool.eq_iff_iff]
  refine ⟨fun hbinds => ?_, (Builder.replay_grows hrun hb).binds⟩
  rcases Builder.binds_of_run hrun hb hs hbinds with hold | ⟨q, hq, bound, hbound, hkey⟩
  · exact hold
  · exact absurd hkey (hleaves q (List.mem_cons_of_mem _ (henters q hq)) bound hbound)

/-- Functions other than arrow functions and values of class fields have receivers of their own. -/
theorem Housed.eq_own_receiver (h : Housed root NodeType.receivers past home p)
    (halias : root.AliasFree) (hleaves : root.LeavesReceiver)
    (hpasses : Passes past p before after final) (hhome : p.isHome NodeType.receivers = true) :
    home = p.home? NodeType.receivers past := by
  obtain ⟨around, hvisit⟩ := h.exists_visit
  have hmem := hvisit.mem_descendants
  exact h.eq_own (houses_receiver (halias p hmem) (hleaves p hmem)) hpasses hhome

/-- A `this` is read at the binding of its home. -/
theorem Visit.exists_receiver (h : Visit root past around p)
    (hthis : p.node.isAny ["ThisExpression"] = true)
    (hfinal : collect (.object root) = .ok final) (hsole : root.SoleProgram)
    (halias : root.AliasFree) (hleaves : root.LeavesReceiver)
    (hpasses : Passes past p before after final) :
    ∃ home e o, Housed root NodeType.receivers past (some home) p ∧ 2 ≤ home ∧
      final.graph.find? home receiverName = some e ∧ p.occurrence = .ok o ∧
      Graph.AddsRead before.graph after.graph e o := by
  have hname : p.readName? = some receiverName := by rw [Path.readName?, hthis, if_pos rfl]
  obtain ⟨home, hhoused⟩ := h.exists_housed NodeType.receivers
  obtain ⟨s, rfl, hle⟩ := hhoused.exists_home hfinal
  have hnearest := hhoused.nearest_receiver hsole halias hleaves hpasses
  rw [Builder.nearest, hpasses.around_after, h.around_before hsole hpasses] at hnearest
  obtain ⟨r, hread, hgains⟩ := h.exists_reads hsole hpasses
  cases r with
  | none =>
    have hnone := hread receiverName hname s (List.mem_of_find?_eq_some hnearest)
    have hbinds := List.find?_some hnearest
    rw [Graph.bindsReceiver, hnone] at hbinds
    cases hbinds
  | some read =>
    obtain ⟨e, o⟩ := read
    obtain ⟨name, t, hread, hfound, -, hfind, hocc, -⟩ := hread
    rw [hname] at hread
    cases hread
    have hst : t = s := Option.some.inj (hfound.symm.trans hnearest)
    subst hst
    refine ⟨t, e, o, hhoused, hle, hfind, hocc, fun e' => ?_⟩
    rw [hgains e']
    by_cases he : e' = e
    · simp [readsOf, he]
    · simp [readsOf, he, Ne.symm he]

end Reads

/-- Each `this` adds one read, to the binding of the receiver in the scope of its home: the nearest
function other than an arrow function, the nearest value of a class field, or the module layer. The
tree shows this binding in the same scope, or in the root if the layer is dissolved. It is implicit
and has no declarations. -/
theorem this_reads_receiver {root : Node} {generated : Bool} {tree : Scope}
    (h : analyze (.object root) generated = .ok tree) (hsole : root.SoleProgram)
    (halias : root.AliasFree) (hleaves : root.LeavesReceiver) :
    ∃ final g, collect (.object root) = .ok final ∧
      final.graph.settle 0 final.isModule generated = .ok g ∧ g.tree 0 = .ok tree ∧
      ∀ past around p, Visit root past around p → p.node.isAny ["ThisExpression"] = true →
        ∃ home before after e o b r, Housed root NodeType.receivers past (some home) p ∧
          Passes past p before after final ∧ final.graph.find? home receiverName = some e ∧
          p.occurrence = .ok o ∧ Graph.AddsRead before.graph after.graph e o ∧
          g.Displays tree
            (if home = 2 && !final.graph.keepsModule 0 final.isModule generated then 0 else home)
            receiverName b ∧
          b.kind = .implicit ∧ b.declarations = [] ∧ o.toReference = .ok r ∧
          b.refs[(before.graph.entry e).refs.length]? = some r := by
  obtain ⟨final, loc, g, hfinal, hloc, hfinished, hg, htree⟩ := exists_of_analyze hsole halias h
  obtain ⟨os, -, hnumbered⟩ := exists_numbered_of_collect hfinal hsole
  refine ⟨final, g, hfinal, hg, htree, fun past around p hvisit hthis => ?_⟩
  obtain ⟨before, after, hpasses⟩ := hvisit.passes (ofTree_of_collect hfinal).2
  obtain ⟨home, e, o, hhoused, hle, hfind, hocc, hadds⟩ :=
    hvisit.exists_receiver hthis hfinal hsole halias hleaves hpasses
  obtain ⟨hkind, hdeclarations⟩ := Builder.pristine_of_collect hfinal hleaves home e hfind
  have hlt := Graph.lt_of_find? hfind
  obtain ⟨b, hbinding, hdisplays⟩ :=
    hfinished.exists_displays hg hnumbered htree hle hlt hfind
  -- An implicit binding of a dissolved layer goes to the root.
  have heir : final.graph.heir 0 1 e = 0 := by simp [Graph.heir, Graph.isLexical, hkind]
  rw [Graph.shownIn, heir] at hdisplays
  -- The read is the last one of its binding for a moment, and it keeps its place.
  obtain ⟨later, hlater⟩ := hpasses.grows_rest.refs e
  rw [hadds e, if_pos rfl, List.append_assoc, List.singleton_append] at hlater
  have hread : (final.graph.entry e).refs[(before.graph.entry e).refs.length]? = some o := by
    rw [← hlater]
    simp
  obtain ⟨r, hr, href⟩ := Graph.exists_getElem?_of_forall₂ (mapM_eq_ok.1 (mapM_refs hbinding)) hread
  have hnone := mapM_declarations hbinding
  rw [hdeclarations] at hnone
  exact ⟨home, before, after, e, o, b, r, hhoused, hpasses, hfind, hocc, hadds, hdisplays,
    (Graph.kind_of_toBinding hbinding).trans hkind, (Except.ok.inj hnone).symm, href, hr⟩

section Arrow

open Sample

/-- A function whose body is an arrow function that returns `this`. -/
def arrowProgram : Node :=
  program 30 [node "FunctionDeclaration" 0 30 [("id", .object (identifier "f" 9)),
    ("params", list []),
    ("body", .object (block 13 30 [node "ExpressionStatement" 15 28 [
      ("expression", .object (node "ArrowFunctionExpression" 15 27 [("params", list []),
        ("body", .object (node "ThisExpression" 21 25 []))]))]]))]]

/-- The receivers of a scope of a tree, with their kinds and the ranges of their reads. -/
def Scope.receivers (scope : Scope) : List (ScopeType × BindingKind × List Range) :=
  scope.bindings.filterMap fun x =>
    if x.1.key = receiverName.key then
      some (scope.type, x.2.kind, x.2.refs.map Reference.range)
    else none

/-- The scopes whose receivers are read. -/
def Builder.readReceivers (b : Builder) : List ScopeId :=
  (List.range b.graph.nextScope).filter fun s =>
    (b.graph.find? s receiverName).any fun e => !(b.graph.entry e).refs.isEmpty

/-- The home of the `this` is the function: the tree shows the read at the receiver of the function,
and the arrow function has no receiver. -/
theorem this_reads_receiver_arrow :
    ∃ tree final g, analyze (.object arrowProgram) false = .ok tree ∧
      collect (.object arrowProgram) = .ok final ∧
      final.graph.settle 0 final.isModule false = .ok g ∧ g.tree 0 = .ok tree ∧
      (∃ past around p, Visit arrowProgram past around p ∧
        p.node.isAny ["ThisExpression"] = true) ∧
      (∀ past around p, Visit arrowProgram past around p →
        p.node.isAny ["ThisExpression"] = true →
        ∃ before after e o b r, Housed arrowProgram NodeType.receivers past (some 3) p ∧
          Passes past p before after final ∧ final.graph.find? 3 receiverName = some e ∧
          p.occurrence = .ok o ∧ Graph.AddsRead before.graph after.graph e o ∧
          g.Displays tree 3 receiverName b ∧ b.kind = .implicit ∧ b.declarations = [] ∧
          o.toReference = .ok r ∧ b.refs[(before.graph.entry e).refs.length]? = some r) ∧
      tree.walk.map Scope.receivers = [[(.object, .implicit, [])], [],
        [(.function, .implicit, [⟨⟨.int 1, .int 21⟩, ⟨.int 1, .int 25⟩⟩])], []] := by
  have hshown : (analyze (.object arrowProgram) false).toOption.map
      (fun tree => tree.walk.map Scope.receivers) = some [[(.object, .implicit, [])], [],
        [(.function, .implicit, [⟨⟨.int 1, .int 21⟩, ⟨.int 1, .int 25⟩⟩])], []] := by
    decide +kernel
  obtain ⟨tree, htree, hshown⟩ := Option.map_eq_some_iff.1 hshown
  have htree := eq_ok_of_toOption htree
  obtain ⟨final, g, hfinal, hg, hroot, hreads⟩ :=
    this_reads_receiver htree (by decide +kernel) (by decide +kernel) (by decide +kernel)
  have honly : (collect (.object arrowProgram)).toOption.map Builder.readReceivers = some [3] := by
    decide +kernel
  rw [hfinal] at honly
  refine ⟨tree, final, g, htree, hfinal, hg, hroot, ?_, ?_, hshown⟩
  · have hthis : ∃ p ∈ (Path.root arrowProgram).descendants,
        p.node.isAny ["ThisExpression"] = true := by decide +kernel
    obtain ⟨p, hp, hthis⟩ := hthis
    obtain ⟨past, around, hvisit⟩ :=
      Visit.root.exists_of_mem_descendants (List.mem_cons_of_mem _ hp)
    exact ⟨past, around, p, hvisit, hthis⟩
  · intro past around p hvisit hthis
    obtain ⟨home, before, after, e, o, b, r, hhoused, hpasses, hfind, hocc, hadds, hdisplays,
      hrest⟩ := hreads past around p hvisit hthis
    -- Only the receiver of the function is read.
    obtain ⟨later, hlater⟩ := hpasses.grows_rest.refs e
    have hmem : home ∈ final.readReceivers := by
      refine List.mem_filter.2 ⟨List.mem_range.2 (Graph.lt_of_find? hfind), ?_⟩
      rw [hfind, Option.any_some, ← hlater, hadds e, if_pos rfl]
      simp
    rw [Option.some.inj honly] at hmem
    obtain rfl := List.mem_singleton.1 hmem
    exact ⟨before, after, e, o, b, r, hhoused, hpasses, hfind, hocc, hadds, hdisplays, hrest⟩

end Arrow

end LexicalScopes
