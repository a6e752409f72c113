import LexicalScopes.Proofs.Graph.Overwriting
import LexicalScopes.Proofs.Shape.Walk

/-!
# What the tree records

Every declaration that the walk records is in the tree exactly once, under the same name. So is
every read, unless the module layer is dissolved and one of its names overwrites a name of the host
that was read.
-/

namespace LexicalScopes

/-! ## The outer layers -/

namespace Graph

variable {g : Graph} {s t : ScopeId} {loc : Json} {x : Scalar × EntryId} {name : Scalar}
  {e : EntryId}

/-- Around its innermost layer a program binds only the names of the host, in the root. -/
theorem mem_bindings_opened (ht : t < 2) (hx : x ∈ ((opened loc).draft t).bindings) :
    t = 0 ∧ ∃ name ∈ hostNames, x.1 = .string name := by
  rw [opened] at hx
  have hnext : ((({} : Graph).addScope .object (.string "Global") loc none).declareImplicit
      0 hostNames).nextScope = 1 := by
    rw [nextScope_declareImplicit, nextScope_addScope]
    rfl
  -- Neither the layer nor what is introduced in it shows further out.
  rcases mem_bindings_declareImplicit (by simp [hnext]) hx with hx | ⟨rfl, -⟩
  · have htwo : t ≠ 2 := Nat.ne_of_lt ht
    rw [draft_addScope, if_neg (by simpa [hnext] using htwo), draft_addScope, hnext] at hx
    split at hx
    · cases hx
    · rename_i hne
      have hzero : t = 0 := Nat.eq_zero_of_le_zero (Nat.le_of_lt_succ
        (Nat.lt_of_le_of_ne (Nat.le_of_lt_succ ht) hne))
      subst hzero
      rcases mem_bindings_declareImplicit (by simp) hx with hx | ⟨-, hname⟩
      · rw [draft_addScope] at hx
        cases hx
      · exact ⟨rfl, hname⟩
  · exact absurd ht (by decide)

theorem declarations_opened : ((opened loc).entry e).declarations = [] := by
  rw [opened]
  simp only [declarations_declareImplicit, entry_addScope]
  exact congrArg Entry.declarations (entry_of_le (Nat.zero_le e))

/-- A scope finds exactly what it binds. -/
theorem OwnsEntries.find?_eq_some_iff (hg : g.OwnsEntries) :
    g.find? s name = some e ↔ ∃ x ∈ (g.draft s).bindings, x.1.key = name.key ∧ x.2 = e := by
  have hfind : g.find? s name =
      ((g.draft s).bindings.find? fun x => x.1.key == name.key).map (·.2) := rfl
  rw [hfind, Option.map_eq_some_iff]
  constructor
  · rintro ⟨x, hx, rfl⟩
    exact ⟨x, List.mem_of_find?_eq_some hx, by simpa using List.find?_some hx, rfl⟩
  · rintro ⟨x, hx, hname, rfl⟩
    refine ⟨x, ?_, rfl⟩
    cases hfound : (g.draft s).bindings.find? fun x => x.1.key == name.key with
    | none => exact absurd (beq_iff_eq.2 hname) (List.find?_eq_none.1 hfound x hx)
    | some y =>
      have hy : y.1.key = name.key := by simpa using List.find?_some hfound
      exact congrArg some (List.inj_on_of_nodup_map (hg.distinct s)
        (List.mem_of_find?_eq_some hfound) hx (hy.trans hname.symm))

end Graph

/-! ## What bindings record -/

section Recorded

variable {α β γ δ : Type}

/-- The items of several bindings, each under the name of its binding. -/
def recordedBy (items : β → List α) (bindings : List (Scalar × β)) : List (Scalar × α) :=
  bindings.flatMap fun (name, b) => (items b).map fun item => (name, item)

/-- All that the bindings of a graph record. -/
def Graph.recorded (g : Graph) (items : Entry → List α) : List (Scalar × α) :=
  recordedBy (fun e => items (g.entry e)) (g.bindingsOf (List.range g.nextScope))

/-- All that the bindings of a tree record. -/
def Scope.recorded (tree : Scope) (items : Binding → List α) : List (Scalar × α) :=
  recordedBy items (tree.walk.flatMap Scope.bindings)

/-- Every item is exported exactly once, under its name, and nothing else is. -/
def Exported (export_ : α → Except Cause β) (xs : List (Scalar × α)) (ys : List (Scalar × β)) :
    Prop :=
  ∃ zs, List.Forall₂ (fun x z => x.1 = z.1 ∧ export_ x.2 = .ok z.2) xs zs ∧ zs.Perm ys

variable {export_ : α → Except Cause β} {items : γ → List α} {items' : δ → List β}
  {xs xs' : List (Scalar × α)} {ys : List (Scalar × β)}

/-- Bindings that are copied one by one export their items one by one. -/
theorem forall₂_recordedBy {bs : List (Scalar × γ)} {cs : List (Scalar × δ)}
    (h : List.Forall₂ (fun b c => b.1 = c.1 ∧ (items b.2).mapM export_ = .ok (items' c.2)) bs cs) :
    List.Forall₂ (fun x z => x.1 = z.1 ∧ export_ x.2 = .ok z.2) (recordedBy items bs)
      (recordedBy items' cs) := by
  refine List.rel_flatMap h fun b c hbc => ?_
  obtain ⟨hname, hitems⟩ := hbc
  rw [List.forall₂_map_left_iff, List.forall₂_map_right_iff]
  exact (mapM_eq_ok.1 hitems).imp fun x z hxz => ⟨hname, hxz⟩

/-- Items are exported exactly if none of them is lost on the way. -/
theorem exported_iff_of_perm {lost : List (Scalar × α)} (hperm : xs.Perm (lost ++ xs'))
    (h : List.Forall₂ (fun x z => x.1 = z.1 ∧ export_ x.2 = .ok z.2) xs' ys) :
    Exported export_ xs ys ↔ lost = [] := by
  constructor
  · rintro ⟨zs, hzs, hys⟩
    -- A lost item would make the exported list too short.
    have hlength := hperm.length_eq
    rw [List.length_append, hzs.length_eq, hys.length_eq, ← h.length_eq] at hlength
    exact List.length_eq_zero_iff.1 (by omega)
  · intro hlost
    rw [hlost, List.nil_append] at hperm
    exact List.perm_comp_forall₂ hperm h

theorem recordedBy_eq_nil_iff {bs : List (Scalar × γ)} :
    recordedBy items bs = [] ↔ ∀ b ∈ bs, items b.2 = [] := by
  simp [recordedBy]

/-- A tree has the bindings of all scopes that it copies, in their order. -/
theorem forall₂_bindingsOf {g : Graph} {s : ScopeId} {fuel : Nat} {tree : Scope}
    (h : g.treeFrom fuel s = .ok tree) :
    List.Forall₂ (fun x y => x.1 = y.1 ∧ (g.entry x.2).toBinding = .ok y.2)
      (g.bindingsOf (g.inside fuel s)) (tree.walk.flatMap Scope.bindings) :=
  List.rel_flatMap (forall₂_shows h) fun _ _ hshows => hshows

/-- What one graph records is in the tree of another one exactly if no binding that is lost between
them records anything. -/
theorem exported_iff_of_tree {g g' : Graph} {items : Entry → List α} {items' : Binding → List β}
    {tree : Scope} {lost : List (Scalar × EntryId)} (htree : g'.tree 0 = .ok tree)
    (hitems : ∀ e b, e.toBinding = .ok b → (items e).mapM export_ = .ok (items' b))
    (hentry : ∀ e, g'.entry e = g.entry e)
    (hperm : (g.bindingsOf (List.range g.nextScope)).Perm
      (lost ++ g'.bindingsOf (g'.inside g'.nextScope 0))) :
    Exported export_ (g.recorded items) (tree.recorded items') ↔
      ∀ x ∈ lost, items (g.entry x.2) = [] := by
  have hrecorded : (g.recorded items).Perm
      (recordedBy (fun e => items (g.entry e)) lost ++
        recordedBy (fun e => items (g.entry e)) (g'.bindingsOf (g'.inside g'.nextScope 0))) := by
    rw [recordedBy, recordedBy, ← List.flatMap_append]
    exact hperm.flatMap_right _
  -- The tree has copies of the bindings that are left, in the order of its scopes.
  have hcopies : List.Forall₂ (fun x y => x.1 = y.1 ∧ (items (g.entry x.2)).mapM export_ =
      .ok (items' y.2)) (g'.bindingsOf (g'.inside g'.nextScope 0))
        (tree.walk.flatMap Scope.bindings) := by
    refine (forall₂_bindingsOf htree).imp fun x y hxy => ?_
    obtain ⟨hname, hbinding⟩ := hxy
    rw [hentry] at hbinding
    exact ⟨hname, hitems _ _ hbinding⟩
  exact (exported_iff_of_perm hrecorded (forall₂_recordedBy hcopies)).trans recordedBy_eq_nil_iff

end Recorded

section Items

variable {e : Entry} {b : Binding}

theorem mapM_declarations (h : e.toBinding = .ok b) :
    e.declarations.mapM Range.ofLoc = .ok b.declarations := by
  obtain ⟨declarations, hdeclarations, h⟩ := bind_eq_ok.1 h
  obtain ⟨refs, -, h⟩ := bind_eq_ok.1 h
  cases h
  exact hdeclarations

theorem mapM_refs (h : e.toBinding = .ok b) :
    e.refs.mapM Occurrence.toReference = .ok b.refs := by
  obtain ⟨declarations, -, h⟩ := bind_eq_ok.1 h
  obtain ⟨refs, hrefs, h⟩ := bind_eq_ok.1 h
  cases h
  exact hrefs

end Items

/-! ## Finished graphs -/

/-- Only a string has the key of a string. -/
theorem Scalar.eq_of_key_eq {name : Scalar} {text : String}
    (h : name.key = (Scalar.string text).key) : name = .string text := by
  cases name with
  | string s =>
    cases h
    rfl
  | float x =>
    rw [Scalar.key] at h
    split at h <;> cases h
  | _ => cases h

/-- A name of the host was read, and the layer hands on another binding of this name to the root. -/
def Graph.OverwritesRead (g : Graph) (root layer : ScopeId) : Prop :=
  ∃ name ∈ hostNames, ∃ e e', g.find? root (.string name) = some e ∧
    g.find? layer (.string name) = some e' ∧ g.isLexical e' = false ∧ (g.entry e).refs ≠ []

/-- If no name of the host was read, none of them loses a read. -/
theorem Graph.not_overwritesRead {g : Graph} (hreads : g.readsHostNames 0 = false) :
    ¬ g.OverwritesRead 0 2 := by
  rintro ⟨name, hname, e, e', he, -, -, hrefs⟩
  have hnone := List.any_eq_false.1 hreads name hname
  rw [he] at hnone
  exact hrefs (List.isEmpty_iff.1 (by simpa using hnone))

namespace Finished

variable {loc : Json} {final : Builder} {x : Scalar × EntryId} {os : List Outline}

theorem name_of_mem_root (h : Finished loc final) (hx : x ∈ (final.graph.draft 0).bindings) :
    ∃ name ∈ Graph.hostNames, x.1 = .string name := by
  rw [(h.untouched 0 (by decide)).bindings_eq] at hx
  exact (Graph.mem_bindings_opened (by decide) hx).2

theorem bindings_lexical (h : Finished loc final) : (final.graph.draft 1).bindings = [] := by
  rw [(h.untouched 1 (by decide)).bindings_eq, List.eq_nil_iff_forall_not_mem]
  intro x hx
  obtain ⟨hzero, -⟩ := Graph.mem_bindings_opened (by decide) hx
  cases hzero

/-- The names of the host are not declared in the root. -/
theorem declarations_of_mem_root (h : Finished loc final)
    (hx : x ∈ (final.graph.draft 0).bindings) : (final.graph.entry x.2).declarations = [] := by
  have huntouched := h.untouched 0 (by decide)
  have hfind : final.graph.find? 0 x.1 = some x.2 :=
    h.sound.valid.owns.find?_eq_some_iff.2 ⟨x, hx, rfl, rfl⟩
  rw [huntouched.find?_eq] at hfind
  rw [huntouched.declarations_eq x.1 x.2 hfind]
  exact Graph.declarations_opened

/-- A lost binding that was read is a name of the host that the layer overwrites. -/
theorem overwritesRead_iff (h : Finished loc final) :
    final.graph.OverwritesRead 0 2 ↔
      ¬ ∀ x ∈ final.graph.lost 0 2, (final.graph.entry x.2).refs = [] := by
  have howns := h.sound.valid.owns
  constructor
  · -- The name is among the bindings of the root that the layer overwrites.
    rintro ⟨name, -, e, e', he, he', hlexical, hrefs⟩ hall
    obtain ⟨x, hx, hxname, rfl⟩ := howns.find?_eq_some_iff.1 he
    obtain ⟨y, hy, hyname, rfl⟩ := howns.find?_eq_some_iff.1 he'
    refine hrefs (hall x (Graph.mem_overwritten.2 ⟨hx, y, ?_, hyname.trans hxname.symm⟩))
    exact List.mem_filter.2 ⟨hy, by rw [hlexical]; rfl⟩
  · intro hlost
    simp only [not_forall] at hlost
    obtain ⟨x, hx, hrefs⟩ := hlost
    obtain ⟨hx, y, hy, hkey⟩ := Graph.mem_overwritten.1 hx
    obtain ⟨hy, hlexical⟩ := List.mem_filter.1 hy
    obtain ⟨name, hname, hxname⟩ := h.name_of_mem_root hx
    refine ⟨name, hname, x.2, y.2, howns.find?_eq_some_iff.2 ⟨x, hx, by rw [hxname], rfl⟩,
      howns.find?_eq_some_iff.2 ⟨y, hy, by rw [hkey, hxname], rfl⟩, ?_, hrefs⟩
    simpa using hlexical

/-- Dissolving the module layer loses nothing but bindings of the root. -/
theorem perm_bindings (h : Finished loc final)
    (hnumbered : Numbered final.graph (some 2) 3 os final.graph.nextScope) :
    (final.graph.bindingsOf (List.range final.graph.nextScope)).Perm
      (final.graph.lost 0 2 ++ (final.graph.dissolveLayer 0 1 2).bindingsOf
        ((final.graph.dissolveLayer 0 1 2).inside final.graph.nextScope 0)) := by
  have hforest := h.sound.valid.forest
  -- All scopes but the layer are in the tree, in the order of their numbers.
  rw [h.layered.range_eq, inside_dissolveLayer hforest h.layered hnumbered]
  refine Graph.perm_bindingsOf_dissolveLayer h.sound.valid.owns
    h.layered.zero_lt h.layered.one_lt Nat.zero_ne_one h.bindings_lexical ?_ ?_
  · intro x _ y hy hkey
    obtain ⟨name, -, hname⟩ := h.name_of_mem_root hy
    rw [hname] at hkey ⊢
    exact (Scalar.eq_of_key_eq hkey.symm).symm
  · intro t ht
    have hle := (List.mem_range'_1.1 ht).1
    constructor
    · intro heq
      rw [heq] at hle
      exact absurd hle (by decide)
    · intro heq
      rw [heq] at hle
      exact absurd hle (by decide)

/-- Items are exported unless the module layer is dissolved and a lost binding has some. -/
theorem exported_iff (h : Finished loc final)
    (hnumbered : Numbered final.graph (some 2) 3 os final.graph.nextScope) {generated : Bool}
    {g : Graph} {tree : Scope} (hg : final.graph.settle 0 final.isModule generated = .ok g)
    (htree : g.tree 0 = .ok tree) {α β : Type} {items : Entry → List α}
    {items' : Binding → List β} {export_ : α → Except Cause β}
    (hitems : ∀ e b, e.toBinding = .ok b → (items e).mapM export_ = .ok (items' b)) :
    Exported export_ (final.graph.recorded items) (tree.recorded items') ↔
      final.graph.keepsModule 0 final.isModule generated = true ∨
        ∀ x ∈ final.graph.lost 0 2, items (final.graph.entry x.2) = [] := by
  have hforest := h.sound.valid.forest
  rw [Graph.settle] at hg
  cases hkeeps : final.graph.keepsModule 0 final.isModule generated with
  | true =>
    rw [hkeeps, if_pos rfl] at hg
    cases hg
    have hsame : (final.graph.bindingsOf (List.range final.graph.nextScope)).Perm
        ([] ++ final.graph.bindingsOf (final.graph.inside final.graph.nextScope 0)) := by
      rw [inside_root hforest h.layered hnumbered, h.layered.range_eq]
      exact .refl _
    simpa using exported_iff_of_tree htree hitems (fun _ => rfl) hsame
  | false =>
    rw [hkeeps, if_neg Bool.false_ne_true, Graph.dissolve, h.layered.layers_eq hforest] at hg
    cases hg
    have hentry : ∀ e, (final.graph.dissolveLayer 0 1 2).entry e = final.graph.entry e :=
      fun _ => Graph.entry_dissolveLayer
    have hlost := exported_iff_of_tree htree hitems hentry (by
      rw [Graph.nextScope_dissolveLayer]
      exact h.perm_bindings hnumbered)
    simpa using hlost

end Finished

/-! ## Nothing but overwritten reads is lost -/

/-- Every declaration is exported exactly once, under its name. So is every read, unless the source
is generated and no module and a read of a host's name is overwritten. -/
theorem recorded_exported_iff {root : Node} {generated : Bool} {tree : Scope}
    (h : analyze (.object root) generated = .ok tree) (hsole : root.SoleProgram)
    (hname : ∀ p ∈ (Path.root root).descendants, p.node.isAny ["program"] = false) :
    ∃ final r lexical layer, collect (.object root) = .ok final ∧ final.root = some r ∧
      final.graph.layers r = .ok (lexical, layer) ∧
      Exported Range.ofLoc (final.graph.recorded Entry.declarations)
        (tree.recorded Binding.declarations) ∧
      (Exported Occurrence.toReference (final.graph.recorded Entry.refs)
          (tree.recorded Binding.refs) ↔
        ¬ (generated = true ∧ final.isModule = false ∧ final.graph.OverwritesRead r layer)) := by
  obtain ⟨final, hfinal, h⟩ := bind_eq_ok.1 h
  obtain ⟨r, hr, h⟩ := bind_eq_ok.1 h
  obtain ⟨g, hg, htree⟩ := bind_eq_ok.1 h
  obtain ⟨loc, hloc, hfinished⟩ :=
    finished_of_collect hfinal (root.isInner_of_soleProgram hsole hname)
  have hzero : r = 0 := by
    rw [Builder.rootScope, hfinished.root_eq] at hr
    exact (Except.ok.inj hr).symm
  subst hzero
  obtain ⟨os, -, hnumbered⟩ := exists_numbered_of_collect hfinal hsole
  have hforest := hfinished.sound.valid.forest
  have hlayers := hfinished.layered.layers_eq hforest
  refine ⟨final, 0, 1, 2, hfinal, hfinished.root_eq, hlayers, ?_, ?_⟩
  · -- Whatever is lost was a name of the host, and those have no declarations.
    refine (hfinished.exported_iff hnumbered hg htree fun _ _ => mapM_declarations).2 (.inr ?_)
    intro x hx
    exact hfinished.declarations_of_mem_root (Graph.mem_overwritten.1 hx).1
  · refine (hfinished.exported_iff hnumbered hg htree fun _ _ => mapM_refs).trans ?_
    have hoverwrites := hfinished.overwritesRead_iff
    constructor
    · rintro (hkeeps | hnone) ⟨rfl, hmodule, hlost⟩
      · rw [Graph.keepsModule, hmodule] at hkeeps
        cases hkeeps
      · exact hoverwrites.1 hlost hnone
    · intro hnot
      cases hkeeps : final.graph.keepsModule 0 final.isModule generated with
      | true => exact .inl rfl
      | false =>
        rw [Graph.keepsModule, Bool.or_eq_false_iff] at hkeeps
        obtain ⟨hmodule, hreads⟩ := hkeeps
        refine .inr (not_not.1 fun hlost => ?_)
        have hoverwrite := hoverwrites.2 hlost
        cases generated with
        | true => exact hnot ⟨rfl, hmodule, hoverwrite⟩
        | false => exact Graph.not_overwritesRead hreads hoverwrite

section Redeclared

open Sample

/-- A name of the host is read and then declared with `var`. -/
def redeclaringProgram : Node := program 21 [reading "require" 0, declaration "var" "require" 9]

theorem recorded_exported_iff_redeclaring :
    ∃ tree, analyze (.object redeclaringProgram) true = .ok tree ∧
      ∃ final r lexical layer, collect (.object redeclaringProgram) = .ok final ∧
        final.root = some r ∧ final.graph.layers r = .ok (lexical, layer) ∧
        Exported Range.ofLoc (final.graph.recorded Entry.declarations)
          (tree.recorded Binding.declarations) ∧
        (Exported Occurrence.toReference (final.graph.recorded Entry.refs)
            (tree.recorded Binding.refs) ↔
          ¬ (true = true ∧ final.isModule = false ∧ final.graph.OverwritesRead r layer)) := by
  obtain ⟨tree, htree⟩ :=
    exists_eq_ok (e := analyze (.object redeclaringProgram) true) (by decide +kernel)
  exact ⟨tree, htree, recorded_exported_iff htree (by decide +kernel) (by decide +kernel)⟩

/-- The walk records a read, but in a generated source the root shows only the declaration. -/
theorem redeclared_read_is_lost :
    (collect (.object redeclaringProgram)).toOption.map (fun b =>
        (b.graph.find? 0 (.string "require")).map fun e => (b.graph.entry e).refs.length) =
      some (some 1) ∧
    (analyze (.object redeclaringProgram) true).toOption.map (fun tree =>
        ((tree.bindings.filter fun x => x.1.key == .string "require").map fun x =>
          (x.2.declarations.length, x.2.refs.length), tree.children.length,
          tree.children.map fun child => child.bindings.length)) =
      some ([(1, 0)], 1, [0]) := by
  decide +kernel

end Redeclared

end LexicalScopes
