import LexicalScopes.Proofs.Ranges.Contained
import LexicalScopes.Proofs.Ranges.Parts
import LexicalScopes.Proofs.Reads

/-!
# What the scopes of a node cover

In a well located tree with the plain spelling, the scopes that a node opens cover what stands below
the node, except for the name of a function, which stands before the scope of the function. All
places that a node brings into the graph are places of the node or of nodes below it.
-/

namespace LexicalScopes

variable {p q c : Path} {n first : Node} {l m : Json} {a a' : Action} {actions rest : List Action}
  {heading : Heading} {bound : BoundName}

namespace Path

/-- What stands at and below the node is located and spelled as it should be. -/
structure Orderly (p : Path) : Prop where
  encloses : p.encloses = true
  parameter : p.startsWithParameter = true
  head : p.startsWithHead = true
  plain : p.HoldsPlain
  aliasFree : p.node.isAny NodeType.aliases = false

/-- The node is the name of a function. -/
def isFunctionName (p : Path) : Bool := p.isChildOf NodeType.functions "id"

/-- The range of the scope that the action opens, if it opens one, is that of the node. -/
def Wide (p : Path) (a : Action) : Prop :=
  ∀ heading, a.heading? = some heading → heading.loc = p.node.place

/-- The location starts where the node or one below it starts, and ends where one of them ends. -/
def Borders (p : Path) (l : Json) : Prop :=
  (∃ q ∈ p :: p.descendants, q.node.place.startPlace = l.startPlace) ∧
    ∃ q ∈ p :: p.descendants, q.node.place.endPlace = l.endPlace

theorem Borders.of_place (hq : q ∈ p :: p.descendants) (h : q.node.place = l) : p.Borders l :=
  ⟨⟨q, hq, by rw [h]⟩, q, hq, by rw [h]⟩

theorem Borders.of_occurrence {o : Occurrence} (h : p.occurrence = .ok o) : p.Borders o.loc := by
  obtain ⟨loc, hloc, hstart, hstop⟩ := standsAt_of_occurrence h
  refine ⟨⟨p, List.mem_cons_self, ?_⟩, p, List.mem_cons_self, ?_⟩
  · rw [Node.place_of_loc hloc]
    exact hstart.symm
  · rw [Node.place_of_loc hloc]
    exact hstop.symm

/-! ## Names of functions -/

theorem isChildOf_of_mem_inField {types : List String} {key key' : String} (h : c ∈ p.inField key) :
    c.isChildOf types key' = (key == key' && p.node.isAny types) := by
  obtain ⟨index, hc⟩ := exists_eq_child h
  rw [hc]
  rfl

/-- The name of a function is an identifier. -/
theorem isAny_of_isFunctionName (hplain : p.node.isPlain = true) (hc : c ∈ p.kids)
    (hname : c.isFunctionName = true) :
    p.node.isAny NodeType.functions = true ∧ c ∈ p.inField "id" ∧
      c.node.isAny ["Identifier"] = true := by
  obtain ⟨key, hkey⟩ := exists_inField_of_mem_kids hc
  rw [isFunctionName, isChildOf_of_mem_inField hkey, Bool.and_eq_true_iff, beq_iff_eq] at hname
  obtain ⟨rfl, hfunction⟩ := hname
  exact ⟨hfunction, hkey, Node.isAny_of_mem_parts hplain (by decide) hfunction
    (mem_parts_of_mem_inField hkey)⟩

theorem kids_of_isIdentifier (h : p.node.isAny ["Identifier"] = true) : p.kids = [] := by
  rw [List.eq_nil_iff_forall_not_mem]
  intro c hc
  have hfields : ∀ t ∈ ["Identifier"],
      (NodeType.childFields.lookup t).any (·.all ([] : List String).contains) = true := by decide
  obtain ⟨key, hkey, -⟩ := exists_key_of_mem_kids h hfields hc
  cases hkey

/-- The name of a function does nothing to the scopes. -/
theorem enterActions_of_isFunctionName (hid : p.node.isAny ["Identifier"] = true)
    (hname : p.isFunctionName = true) : p.enterActions = [] := by
  have hrole : p.node.role? = some .identifier := Node.role?_of_isAny (by decide) hid
  have hp : p.isProgram = false := Node.isAny_eq_false hid (by decide)
  cases p with
  | root n => cases hname
  | child parent key index n =>
    obtain ⟨hkey, hfunction⟩ := Bool.and_eq_true_iff.1 hname
    rw [beq_iff_eq] at hkey
    subst hkey
    have hplace : (Path.child parent "id" index n).isChildOf NodeType.classFields "value" = false :=
      isChildOf_eq_false (by simp [key?])
    -- A function holds reads in its body alone.
    have hread : (Path.child parent "id" index n).isReferenced = false := by
      obtain ⟨t, ht, htype⟩ := Node.isAny_iff.1 hfunction
      have hreading : parent.node.reading = .only "body" ∨ parent.node.reading = .member := by
        rw [Node.reading, htype]
        clear htype
        revert t
        decide
      rcases hreading with hreading | hreading <;>
        simp [isReferenced, readsIn, hreading]
    have hown : (Path.child parent "id" index n).ownActions = .ok [] := by
      unfold ownActions roleActions identifierActions
      simp only [hplace, hrole, hread]
      rfl
    simp [enterActions, hp, hown, Action.attempt]

end Path

/-! ## Starts of functions and loops -/

theorem Node.exists_of_functionRange (h : n.functionRange = .ok l) :
    l.endPlace = n.place.endPlace ∧ (l.startPlace = n.place.startPlace ∨
      ∃ first, n.firstParameter? = some first ∧ l.startPlace = first.place.startPlace) := by
  obtain ⟨loc, hloc, h⟩ := bind_eq_ok.1 h
  rw [place_of_loc hloc]
  dsimp only at h
  split at h
  · split at h
    · rename_i first rest hparams
      obtain ⟨node, hnode, h⟩ := bind_eq_ok.1 h
      obtain ⟨start, hstart, h⟩ := bind_eq_ok.1 h
      obtain ⟨firstLoc, hfirst, hstart⟩ := bind_eq_ok.1 hstart
      cases h
      cases hstart
      refine ⟨rfl, .inr ⟨node, ?_, ?_⟩⟩
      · rw [firstParameter?, hparams]
        exact readable_eq_ok.1 hnode
      · rw [place_of_loc hfirst]
        rfl
    · cases h
  · cases h
    exact ⟨rfl, .inl rfl⟩

theorem Node.mem_parts_of_firstParameter? (h : n.firstParameter? = some first) :
    first ∈ n.parts "params" := by
  unfold firstParameter? at h
  split at h
  · rename_i item rest hparams
    rw [parts, hparams]
    exact List.mem_filterMap.2 ⟨item, List.mem_cons_self, h⟩
  · cases h

theorem Node.exists_part_of_loopHead {declaration : Node} (h : n.loopHead = .object declaration) :
    declaration ∈ n.parts "init" ∨ declaration ∈ n.parts "left" := by
  unfold loopHead at h
  split at h
  · exact .inl (mem_parts_of_object h)
  · exact .inr (mem_parts_of_object h)

namespace Path.Orderly

variable (h : p.Orderly)

include h

theorem isPlain : p.node.isPlain = true := h.plain p List.mem_cons_self

theorem surrounds (hq : q ∈ p :: p.descendants) : p.node.place.surrounds q.node.place = true :=
  List.all_eq_true.1 h.encloses q hq

theorem surrounds_of_mem_kids (hc : c ∈ p.kids) (hq : q ∈ c :: c.descendants) :
    p.node.place.surrounds q.node.place = true :=
  h.surrounds (List.mem_cons_of_mem _ (mem_descendants_iff.2 ⟨c, hc, List.mem_cons.1 hq⟩))

/-- The first parameter is a child of the function. -/
theorem exists_kid_of_firstParameter? (htype : p.node.isAny NodeType.functions = true)
    (hfirst : p.node.firstParameter? = some first) : ∃ c ∈ p.kids, c.node = first := by
  have hpart := Node.mem_parts_of_firstParameter? hfirst
  have hplain : (NodeType.functions, "params", Node.patterns) ∈ Node.plainFields := by decide
  have hpattern := Node.isAny_of_mem_parts h.isPlain hplain htype hpart
  obtain ⟨c, hc, hnode, -⟩ :=
    exists_kid htype (by decide) hpart (Node.has_type_of_isAny hpattern)
  exact ⟨c, hc, hnode⟩

theorem startsBy_parameter (htype : p.node.isAny NodeType.functions = true)
    (hfirst : p.node.firstParameter? = some first) (hc : c ∈ p.kids)
    (hkey : c.key? = some "params" ∨ c.key? = some "body") (hq : q ∈ c :: c.descendants) :
    first.place.startsBy q.node.place = true := by
  have hstarts := h.parameter
  rw [startsWithParameter, htype, hfirst, Bool.not_true, Bool.false_or, Option.all_some] at hstarts
  have hkid := List.all_eq_true.1 hstarts c hc
  have hkeys : (c.key? == some "params" || c.key? == some "body") = true := by simpa using hkey
  rw [hkeys, Bool.not_true, Bool.false_or] at hkid
  exact List.all_eq_true.1 hkid q hq

/-- Functions that are no methods have a name, parameters and a body below them. -/
theorem key?_of_function (htype : p.node.isAny NodeType.functions = true) (hc : c ∈ p.kids)
    (hname : c.isFunctionName = false) : c.key? = some "params" ∨ c.key? = some "body" := by
  have hmethod : p.node.isAny ["ObjectMethod", "ClassMethod", "ClassPrivateMethod"] = false := by
    simpa using (Bool.and_eq_true_iff.1 h.isPlain).1
  have hkinds : NodeType.functions =
      ["FunctionDeclaration", "FunctionExpression", "ArrowFunctionExpression"] ++
        ["ObjectMethod", "ClassMethod", "ClassPrivateMethod"] := rfl
  have hfunction := htype
  rw [hkinds, Node.isAny_append, hmethod, Bool.or_false] at htype
  have hfields : ∀ t ∈ ["FunctionDeclaration", "FunctionExpression", "ArrowFunctionExpression"],
      (NodeType.childFields.lookup t).any (·.all ["id", "params", "body"].contains) = true := by
    decide
  obtain ⟨key, hkey, hc⟩ := exists_key_of_mem_kids htype hfields hc
  rw [isFunctionName, isChildOf_of_mem_inField hc, hfunction, Bool.and_true] at hname
  rw [key?_of_mem_inField hc]
  simp only [List.mem_cons, List.not_mem_nil, or_false] at hkey
  rcases hkey with rfl | rfl | rfl
  · cases hname
  · exact .inl rfl
  · exact .inr rfl

theorem isAny_loops (hrole : p.node.role? = some .loop) : p.node.isAny NodeType.loops = true := by
  rw [Node.isAny_eq_decide_role? NodeType.loops .loop h.aliasFree (by decide) (by decide)]
  exact decide_eq_true hrole

theorem startsBy_head {declaration : Node} (hrole : p.node.role? = some .loop)
    (hhead : p.node.loopHead = .object declaration) (hq : q ∈ p.descendants) :
    declaration.place.startsBy q.node.place = true := by
  have hstarts := h.head
  rw [startsWithHead, h.isAny_loops hrole, hhead, Bool.not_true, Bool.false_or] at hstarts
  exact List.all_eq_true.1 hstarts q hq

/-- The head of a loop is a child of the loop. -/
theorem exists_kid_of_loopHead {declaration : Node} (hrole : p.node.role? = some .loop)
    (hhead : p.node.loopHead = .object declaration) (htyped : declaration.has "type" = true) :
    ∃ c ∈ p.kids, c.node = declaration := by
  have htype := h.isAny_loops hrole
  -- A `for` has its head in one field, the other loops have it in another one.
  have hkinds : NodeType.loops = ["ForStatement"] ++ ["ForInStatement", "ForOfStatement"] := rfl
  rw [hkinds, Node.isAny_append, Bool.or_eq_true] at htype
  have hnone : ∀ {n : Node}, n.isAny [] ≠ true := by
    intro n hany
    obtain ⟨t, ht, -⟩ := Node.isAny_iff.1 hany
    cases ht
  rcases htype with htype | htype <;>
    rcases Node.exists_part_of_loopHead hhead with hpart | hpart
  · obtain ⟨c, hc, hnode, -⟩ := exists_kid htype (by decide) hpart htyped
    exact ⟨c, hc, hnode⟩
  · have hplain : (["ForStatement"], "left", []) ∈ Node.plainFields := by decide
    exact absurd (Node.isAny_of_mem_parts h.isPlain hplain htype hpart) hnone
  · have hplain : (["ForInStatement", "ForOfStatement"], "init", []) ∈ Node.plainFields := by
      decide
    exact absurd (Node.isAny_of_mem_parts h.isPlain hplain htype hpart) hnone
  · obtain ⟨c, hc, hnode, -⟩ := exists_kid htype (by decide) hpart htyped
    exact ⟨c, hc, hnode⟩

/-! ## Places of actions -/

/-- A declared name stands at an identifier at or below the node. -/
theorem borders_of_binds (hbound : p.node.Binds bound) : p.Borders bound.loc := by
  obtain ⟨q, hq, hname⟩ := h.plain.holdsIdentifier_of_binds h.aliasFree hbound
  obtain ⟨loc, hloc, hname⟩ := bind_eq_ok.1 hname
  obtain ⟨name, -, hname⟩ := bind_eq_ok.1 hname
  cases hname
  exact .of_place hq (Node.place_of_loc hloc)

theorem borders_of_functionRange (hrole : p.node.role? = some .function)
    (hrange : p.node.functionRange = .ok l) : p.Borders l := by
  obtain ⟨hend, hstart⟩ := Node.exists_of_functionRange hrange
  refine ⟨?_, p, List.mem_cons_self, hend.symm⟩
  rcases hstart with hstart | ⟨first, hfirst, hstart⟩
  · exact ⟨p, List.mem_cons_self, hstart.symm⟩
  · obtain ⟨c, hc, rfl⟩ := h.exists_kid_of_firstParameter?
      (Node.isAny_functions_of_role? h.aliasFree hrole) hfirst
    exact ⟨c, List.mem_cons_of_mem _ (mem_descendants_of_mem_kids hc), hstart.symm⟩

theorem borders_of_loopHead {declaration loc : Node} {start : Json}
    (hrole : p.node.role? = some .loop) (hlexical : p.node.loopHead.isLexicalDeclaration = true)
    (hhead : p.node.loopHead = .object declaration) (hstart : declaration.start = .ok start)
    (hloc : p.node.loc = .ok loc) : p.Borders (span start (loc.get "end")) := by
  refine ⟨?_, p, List.mem_cons_self, by rw [Node.place_of_loc hloc]; rfl⟩
  have htyped : declaration.has "type" = true := by
    rw [hhead] at hlexical
    exact Node.has_type_of_isAny (Bool.and_eq_true_iff.1 hlexical).1
  obtain ⟨c, hc, rfl⟩ := h.exists_kid_of_loopHead hrole hhead htyped
  obtain ⟨headLoc, hheadLoc, hstart⟩ := bind_eq_ok.1 hstart
  cases hstart
  exact ⟨c, List.mem_cons_of_mem _ (mem_descendants_of_mem_kids hc), by
    rw [Node.place_of_loc hheadLoc]; rfl⟩

/-- All that an action of the node brings stands at places of the node and of nodes below it. -/
theorem borders_of_mem_locs (ha : p.Performs a) (hl : l ∈ a.locs) : p.Borders l := by
  cases ha with
  | openRoot hloc =>
    rw [List.mem_singleton.1 hl]
    exact .of_place List.mem_cons_self (Node.place_of_loc hloc)
  | openScope hloc type label =>
    rw [List.mem_singleton.1 hl]
    exact .of_place List.mem_cons_self (Node.place_of_loc hloc)
  | openFunction hrole hrange name =>
    rw [List.mem_singleton.1 hl]
    exact h.borders_of_functionRange hrole hrange
  | openLoop hrole hlexical hhead hstart hloc =>
    rw [List.mem_singleton.1 hl]
    exact h.borders_of_loopHead hrole hlexical hhead hstart hloc
  | declare hbound kind =>
    rw [List.mem_singleton.1 hl]
    exact h.borders_of_binds hbound
  | hoist hbound =>
    rw [List.mem_singleton.1 hl]
    exact h.borders_of_binds hbound
  | declareFunction hbound =>
    rw [List.mem_singleton.1 hl]
    exact h.borders_of_binds hbound
  | refer hname =>
    cases hocc : p.occurrence with
    | error fault =>
      rw [hocc] at hl
      cases hl
    | ok o =>
      rw [hocc] at hl
      rw [List.mem_singleton.1 hl]
      exact .of_occurrence hocc
  | _ => cases hl

/-- What encloses the node and all nodes below it encloses what the node brings into the graph. -/
theorem surrounds_locs (ha : p.Performs a)
    (hl : ∀ q ∈ p :: p.descendants, l.surrounds q.node.place = true) :
    ∀ m ∈ a.locs, l.surrounds m = true := by
  intro m hm
  obtain ⟨⟨q, hq, hstart⟩, q', hq', hend⟩ := h.borders_of_mem_locs ha hm
  rw [Json.surrounds_iff]
  constructor
  · rw [Json.startsBy_congr rfl hstart.symm]
    exact (Json.surrounds_iff.1 (hl q hq)).1
  · rw [Json.endsBy_congr hend.symm rfl]
    exact (Json.surrounds_iff.1 (hl q' hq')).2

/-! ## Own scopes -/

/-- A scope that the node opens covers what stands below the node, except for the name of a
function. -/
theorem surrounds_kid (ha : p.Performs a) (hheading : a.heading? = some heading) (hc : c ∈ p.kids)
    (hname : c.isFunctionName = false) (hq : q ∈ c :: c.descendants) :
    heading.loc.surrounds q.node.place = true := by
  have hwhole := h.surrounds_of_mem_kids hc hq
  cases ha with
  | openRoot hloc =>
    cases hheading
    rwa [← Node.place_of_loc hloc]
  | openScope hloc type label =>
    cases hheading
    rwa [← Node.place_of_loc hloc]
  | openFunction hrole hrange name =>
    cases hheading
    have htype := Node.isAny_functions_of_role? h.aliasFree hrole
    obtain ⟨hend, hstart⟩ := Node.exists_of_functionRange hrange
    obtain ⟨hwholeStart, hwholeEnd⟩ := Json.surrounds_iff.1 hwhole
    refine Json.surrounds_iff.2 ⟨?_, by rwa [Json.endsBy_congr rfl hend]⟩
    rcases hstart with hstart | ⟨first, hfirst, hstart⟩
    · rwa [Json.startsBy_congr hstart rfl]
    · rw [Json.startsBy_congr hstart rfl]
      exact h.startsBy_parameter htype hfirst hc (h.key?_of_function htype hc hname) hq
  | @openLoop declaration loc start hrole hlexical hhead hstart hloc =>
    cases hheading
    obtain ⟨headLoc, hheadLoc, hstart⟩ := bind_eq_ok.1 hstart
    cases hstart
    have hbelow : q ∈ p.descendants := mem_descendants_iff.2 ⟨c, hc, List.mem_cons.1 hq⟩
    have hfirst := h.startsBy_head hrole hhead hbelow
    rw [Node.place_of_loc hloc] at hwhole
    rw [Node.place_of_loc hheadLoc] at hfirst
    exact Json.surrounds_iff.2 ⟨hfirst, (Json.surrounds_iff.1 hwhole).2⟩
  | _ => cases hheading

theorem encloses_of_wide (hwide : p.Wide a) (ha : p.Performs a') : a.Encloses a' := by
  intro heading hheading l hl
  rw [hwide heading hheading]
  exact h.surrounds_locs ha (fun q hq => h.surrounds hq) l hl

/-- Actions that open nothing narrower than the node stand in front of others. -/
theorem pairwise_append (hfront : ∀ a ∈ actions, p.Performs a ∧ p.Wide a)
    (hrest : ∀ a ∈ rest, p.Performs a) (hpairs : rest.Pairwise Action.Encloses) :
    (actions ++ rest).Pairwise Action.Encloses := by
  refine List.pairwise_append.2 ⟨?_, hpairs, ?_⟩
  · exact List.pairwise_of_forall_mem_list fun a ha a' ha' =>
      h.encloses_of_wide (hfront a ha).2 (hfront a' ha').1
  · intro a ha a' ha'
    exact h.encloses_of_wide (hfront a ha).2 (hrest a' ha')

end Path.Orderly

/-! ## Actions of a node -/

theorem Path.Wide.of_heading?_eq_none (h : a.heading? = none) : p.Wide a := by
  intro heading hheading
  rw [h] at hheading
  cases hheading

theorem wide_of_headings {headings : List Heading} (hopens : Opens actions headings)
    (hloc : ∀ heading ∈ headings, heading.loc = p.node.place) : ∀ a ∈ actions, p.Wide a := by
  intro a ha heading hheading
  refine hloc heading ?_
  rw [← hopens.headings_eq]
  exact List.mem_filterMap.2 ⟨a, ha, hheading⟩

theorem loc_of_coveringIf {reason : Bool} {type : ScopeType} {label : String}
    {headings : List Heading} (h : n.coveringIf reason type label = .ok headings) :
    ∀ heading ∈ headings, heading.loc = n.place := by
  cases reason with
  | false =>
    cases h
    simp
  | true =>
    rw [Node.coveringIf, if_pos rfl] at h
    obtain ⟨heading, hheading, h⟩ := bind_eq_ok.1 h
    obtain ⟨loc, hloc, hheading⟩ := bind_eq_ok.1 hheading
    cases hheading
    cases h
    simp [Node.place_of_loc hloc]

/-- Only functions and loops open scopes narrower than themselves. -/
theorem Path.Performs.wide (ha : p.Performs a) (hfunction : p.node.role? ≠ some .function)
    (hloop : p.node.role? ≠ some .loop) : p.Wide a := by
  cases ha with
  | openRoot hloc =>
    intro heading hheading
    cases hheading
    exact (Node.place_of_loc hloc).symm
  | openScope hloc type label =>
    intro heading hheading
    cases hheading
    exact (Node.place_of_loc hloc).symm
  | openFunction hrole hrange name => exact absurd hrole hfunction
  | openLoop hrole hlexical hhead hstart hloc => exact absurd hrole hloop
  | _ => exact .of_heading?_eq_none rfl

namespace Path.Orderly

variable (h : p.Orderly)

include h

/-- The scope of a function encloses the parameters. -/
theorem encloses_parameter {params : List Action} {range name : Json}
    (hrole : p.node.role? = some .function) (hrange : p.node.functionRange = .ok range)
    (hparams : p.node.parameterActions = .ok params) (ha : a ∈ params) :
    Action.Encloses (.openScope .function name range) a := by
  intro heading hheading l hl
  rcases exists_of_parameterActions hparams ha with
    ⟨entries, param, bound, hentries, hmem, rfl, hbound⟩ | ⟨names, rfl⟩
  · have htype := Node.isAny_functions_of_role? h.aliasFree hrole
    have hpart : ∀ m, param = .object m → m ∈ p.node.parts "params" := by
      rintro m rfl
      exact Node.mem_parts_of_entries? (readable_eq_ok.1 hentries) hmem
    obtain ⟨c, hc, hkey, q, hq, hname⟩ :=
      h.plain.exists_kid_of_target htype (by decide) hpart hbound
    have hnotName : c.isFunctionName = false := Path.isChildOf_eq_false (by simp [hkey])
    obtain ⟨loc, hloc, hname⟩ := bind_eq_ok.1 hname
    obtain ⟨text, -, hname⟩ := bind_eq_ok.1 hname
    cases hname
    rw [List.mem_singleton.1 hl, ← Node.place_of_loc hloc]
    exact h.surrounds_kid (.openFunction hrole hrange name) hheading hc hnotName hq
  · cases hl

/-- The scopes that a node opens by its role enclose what it then brings into the graph. -/
theorem pairwise_roleActions (hactions : p.roleActions = .ok actions) :
    actions.Pairwise Action.Encloses := by
  have hperforms := performs_roleActions hactions
  by_cases hfunction : p.node.role? = some .function
  · rw [Path.roleActions, hfunction] at hactions
    obtain ⟨own, hown, hactions⟩ := bind_eq_ok.1 hactions
    obtain ⟨name, -, hactions⟩ := bind_eq_ok.1 hactions
    obtain ⟨range, hrange, hactions⟩ := bind_eq_ok.1 hactions
    obtain ⟨params, hparams, hactions⟩ := bind_eq_ok.1 hactions
    cases hactions
    obtain ⟨headings, hheadings, hopens⟩ := opens_ownNameActions hown
    have hwide := wide_of_headings (p := p) hopens (loc_of_coveringIf hheadings)
    refine h.pairwise_append (fun a ha => ⟨performs_ownNameActions hown a ha, hwide a ha⟩)
      (fun a ha => hperforms a (List.mem_append_right _ ha)) (List.pairwise_cons.2 ⟨?_, ?_⟩)
    · exact fun a ha => h.encloses_parameter hfunction hrange hparams ha
    · -- Parameters open nothing.
      have hnone := (opens_parameterActions hparams).headings_eq
      rw [List.filterMap_eq_nil_iff] at hnone
      refine List.pairwise_of_forall_mem_list fun a ha a' _ heading hheading => ?_
      rw [hnone a ha] at hheading
      cases hheading
  · by_cases hloop : p.node.role? = some .loop
    · -- A loop opens one scope at most and does nothing else.
      rw [Path.roleActions, hloop] at hactions
      unfold Node.loopActions at hactions
      dsimp only at hactions
      split at hactions
      · obtain ⟨start, -, hactions⟩ := bind_eq_ok.1 hactions
        obtain ⟨loc, -, hactions⟩ := bind_eq_ok.1 hactions
        cases hactions
        exact List.pairwise_singleton _ _
      · cases hactions
        exact .nil
    · have hall := h.pairwise_append
        (fun a ha => ⟨hperforms a ha, (hperforms a ha).wide hfunction hloop⟩) (by simp) .nil
      rwa [List.append_nil] at hall

theorem pairwise_ownActions (hactions : p.ownActions = .ok actions) :
    actions.Pairwise Action.Encloses := by
  obtain ⟨field, rest, hfield, hrest, rfl⟩ := exists_of_ownActions hactions
  refine h.pairwise_append ?_ (performs_roleActions hrest) (h.pairwise_roleActions hrest)
  rcases hfield with ⟨-, rfl⟩ | ⟨hplace, hfield⟩
  · simp
  · intro a ha
    refine ⟨performs_classFieldActions (.inr (.inl hplace)) hfield a ha, ?_⟩
    obtain ⟨headings, hheadings, hopens⟩ := opens_classFieldActions hfield
    exact wide_of_headings hopens (loc_of_coveringIf hheadings) a ha

/-- The scopes that a node opens enclose what it then brings into the graph. -/
theorem pairwise_enterActions {b b' : Builder} (hrun : b.replay p.enterActions = .ok b') :
    p.enterActions.Pairwise Action.Encloses := by
  have hperforms := performs_enterActions hrun
  cases Builder.enters_of_replay hrun with
  | program hp hactions hopens henter hexit =>
    obtain ⟨loc, hloc, hopens'⟩ := opens_programActions hactions
    have hwide : ∀ a ∈ p.enterActions, p.Wide a := by
      rw [henter]
      exact wide_of_headings hopens' (by simp [Node.place_of_loc hloc])
    have hall := h.pairwise_append (fun a ha => ⟨hperforms a ha, hwide a ha⟩) (by simp) .nil
    rwa [List.append_nil] at hall
  | through hp hactions hown henter hexit =>
    rw [henter]
    exact h.pairwise_ownActions hactions
  | inside hp hactions hown henter hexit =>
    have hmark : ∀ a ∈ [Action.mark], p.Performs a ∧ p.Wide a := by
      simp [Path.Performs.mark, Path.Wide.of_heading?_eq_none (a := .mark) rfl]
    rw [henter]
    exact h.pairwise_append hmark (performs_ownActions hactions) (h.pairwise_ownActions hactions)

end Path.Orderly

end LexicalScopes
