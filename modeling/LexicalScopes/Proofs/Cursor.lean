import LexicalScopes.Proofs.Cursor.Places
import LexicalScopes.Proofs.Cursor.Search
import LexicalScopes.Proofs.Run.Later

/-!
# Names at the place of a read

Where names are declared before they are read, a read belongs to the innermost scope around it that
binds its name in the end. A search for the place where the read starts leads to the same scope and
binding if no other scopes contain this place. A scope that merely touches the read contains it too,
and then the search may go astray.
-/

namespace LexicalScopes

/-! ## Recorded reads -/

section Reads

variable {root : Node} {past : List Event} {around : List ScopeId} {p : Path}
  {before after final : Builder} {g g' : Graph} {e : EntryId} {o : Occurrence} {name : Scalar}
  {s t : ScopeId}

theorem Graph.Gains.mem_refs {r : Option Read} (h : Graph.Gains g g' r)
    (ho : o ∈ (g'.entry e).refs) : o ∈ (g.entry e).refs ∨ r = some (e, o) := by
  rw [h e] at ho
  refine (List.mem_append.1 ho).imp_right fun ho => ?_
  obtain ⟨read, hread, rfl⟩ := List.mem_map.1 ho
  obtain ⟨hmem, he⟩ := List.mem_filter.1 hread
  rw [Option.mem_toList.1 hmem, ← of_decide_eq_true he]

/-- Every read in the graph belongs to a visit. -/
theorem exists_visitReads_of_mem_refs (hfinal : collect (.object root) = .ok final)
    (hsole : root.SoleProgram) (ho : o ∈ (final.graph.entry e).refs) :
    ∃ v, root.VisitReads final v (some (e, o)) := by
  refine Builder.run_induction (P := fun _ b => ∀ e o, o ∈ (b.graph.entry e).refs →
    ∃ v, root.VisitReads final v (some (e, o))) (ofTree_of_collect hfinal).2 ?_ ?_ ?_ e o ho
  · intro e o ho
    rw [Graph.entry_of_le (Nat.zero_le e)] at ho
    cases ho
  · intro past around p before after hvisit hpasses hbefore e o ho
    obtain ⟨r, hread, hgains⟩ := hvisit.exists_reads hsole hpasses
    rcases hgains.mem_refs ho with hold | rfl
    · exact hbefore e o hold
    · exact ⟨(past, p), around, before, after, hvisit, hpasses, hread, hgains⟩
  · intro past p b b' hgraph hb e o ho
    rw [hgraph] at ho
    exact hb e o ho

/-! ## Scopes around a read -/

/-- The scopes of the root are around every node. -/
theorem Visit.mem_of_root (h : Visit root past around p) (hs : s ∈ (Path.root root).ownScopes []) :
    s ∈ p.ownScopes past ++ around := by
  induction h with
  | root => exact List.mem_append_left _ hs
  | child h hkids ih => exact List.mem_append_right _ ih

/-- After a node is entered the scopes around it are the chain of one scope, inside the layers. -/
theorem Visit.exists_chain (h : Visit root past around p)
    (hfinal : collect (.object root) = .ok final) (hsole : root.SoleProgram)
    (hpasses : Passes past p before after final) :
    ∃ c, 2 ≤ c ∧ c < after.graph.nextScope ∧ p.ownScopes past ++ around = after.graph.chain c ∧
      final.graph.chain c = after.graph.chain c := by
  have hlayer : 2 ∈ p.ownScopes past ++ around := by
    refine h.mem_of_root ?_
    rw [Path.mem_ownScopes, scopeCount_of_collect hfinal]
    exact ⟨by decide, by decide⟩
  have haround := hpasses.around_after
  rw [h.around_before hsole hpasses, Builder.around] at haround
  cases hcurrent : after.current with
  | none =>
    rw [hcurrent] at haround
    rw [← haround] at hlayer
    cases hlayer
  | some c =>
    rw [hcurrent] at haround
    have hafter := hpasses.sound_after
    have hc := hafter.current_lt c hcurrent
    rw [← haround] at hlayer ⊢
    exact ⟨c, Graph.le_of_mem_chain hafter.valid.forest.ranked hlayer, hc, rfl,
      hpasses.grows_rest.chain_eq hafter.valid.forest hpasses.sound_final.valid.forest hc⟩

/-- Where names are declared first, the scope in which a read is recorded is the one that its name
leads to in the end. -/
theorem Visit.exists_resolve (h : Visit root past around p)
    (hfinal : collect (.object root) = .ok final) (hsole : root.SoleProgram)
    (hfirst : root.DeclaresFirst) (hpasses : Passes past p before after final)
    (hname : p.readName? = some name)
    (hfound : (p.ownScopes past ++ around).find? (after.graph.binds · name) = some t) :
    ∃ c, p.ownScopes past ++ around = final.graph.chain c ∧ 2 ≤ c ∧
      c < final.graph.nextScope ∧ final.graph.resolve c name = some t := by
  obtain ⟨c, hle, hc, haround, hchain⟩ := h.exists_chain hfinal hsole hpasses
  refine ⟨c, haround.trans hchain.symm, hle,
    Nat.lt_of_lt_of_le hc hpasses.grows_rest.nextScope_le, ?_⟩
  -- The scopes of the chain bind the name in the end only if they bind it at the read.
  have hbinds : ∀ u ∈ after.graph.chain c,
      final.graph.binds u name = after.graph.binds u name := by
    intro u hu
    have hu := Graph.le_of_mem_chain hpasses.sound_after.valid.forest.ranked hu
    exact h.binds_of_final (ofTree_of_collect hfinal).2 hfirst hpasses hname
      (Nat.lt_of_le_of_lt hu hc)
  rw [Graph.resolve, hchain, List.find?_congr hbinds, ← haround, hfound]

end Reads

/-! ## Reads of the tree -/

/-- Visiting a node inside these scopes records the read at the binding. -/
def Node.ReadAt (root : Node) (final : Builder) (scopes : List ScopeId) (e : EntryId)
    (r : Reference) : Prop :=
  ∃ past around p o, Visit root past around p ∧ scopes = p.ownScopes past ++ around ∧
    root.VisitReads final (past, p) (some (e, o)) ∧ o.toReference = .ok r

section Places

variable {root : Node} {generated : Bool} {loc : Json} {final : Builder} {g : Graph}
  {scopes : List ScopeId} {e : EntryId} {r : Reference} {s : ScopeId}

/-- A read starts at a place that the scopes around it include. -/
theorem Node.ReadAt.exists_place (h : root.ReadAt final scopes e r) (hregular : root.Regular)
    (hordered : root.Ordered) (hfinal : collect (.object root) = .ok final) :
    ∃ place ∈ root.places, Location.ofPlace place = .ok r.range.start ∧
      ∀ s ∈ scopes, (final.graph.draft s).loc.includes place = true := by
  obtain ⟨past, around, p, o, hvisit, rfl, hreads, href⟩ := h
  obtain ⟨-, -, -, -, -, ⟨name, t, hname, -, -, -, -, hstands⟩, -⟩ := hreads
  refine ⟨p.node.place.startPlace, Node.startPlace_mem_places hvisit.mem_descendants, ?_,
    fun s hs => hvisit.includes_start hregular hordered (ofTree_of_collect hfinal).2 hname hs⟩
  obtain ⟨nodeLoc, hloc, hstart, -⟩ := hstands
  have hplace := (Json.exists_of_ofLoc (range_of_toReference href)).1
  rw [Occurrence.loc, Json.startPlace_span, hstart] at hplace
  rw [Node.place_of_loc hloc]
  exact hplace

section Settle

variable (h : root.ReadAt final scopes e r) (hregular : root.Regular) (hordered : root.Ordered)
  (hfinal : collect (.object root) = .ok final) (hfinished : Finished loc final)
  (hg : final.graph.settle 0 final.isModule generated = .ok g)

include h hregular hordered hfinal hfinished hg

theorem Node.ReadAt.decides : g.Decides r.range.start := by
  obtain ⟨place, hplace, hstart, -⟩ := h.exists_place hregular hordered hfinal
  intro s range hrange
  rw [hfinished.loc_settle hg] at hrange
  exact exists_contains_of_collect hfinal hregular hordered hplace hstart hrange

/-- No scope around a read fails to contain the place where the read starts. -/
theorem Node.ReadAt.holds_ne_false (hs : s ∈ scopes) : g.holds r.range.start s ≠ .ok false := by
  obtain ⟨place, -, hstart, hincludes⟩ := h.exists_place hregular hordered hfinal
  intro hfalse
  obtain ⟨range, hrange, hcontains⟩ := bind_eq_ok.1 hfalse
  rw [liftM_eq_ok, hfinished.loc_settle hg] at hrange
  rw [Json.contains_of_includes (hincludes s hs) hrange hstart] at hcontains
  cases hcontains

end Settle

open LexicalScopes.Graph

/-- A read of the tree is made by a node inside scopes from which its name leads to the scope that
lists the read. -/
theorem Graph.Shows.exists_readAt {scope : Scope} {x : Scalar × Binding} (h : g.Shows s scope)
    (hregular : root.Regular) (hfirst : root.DeclaresFirst)
    (hfinal : collect (.object root) = .ok final) (hfinished : Finished loc final)
    (hg : final.graph.settle 0 final.isModule generated = .ok g) (hs : g.Reaches 0 s)
    (hx : x ∈ scope.bindings) (hr : r ∈ x.2.refs) :
    ∃ e scopes c c', g.find? s x.1 = some e ∧ (g.entry e).toBinding = .ok x.2 ∧
      root.ReadAt final scopes e r ∧ scopes = final.graph.chain c ∧
      g.StandsFor c' final.graph c ∧ g.resolve c' x.1 = some s := by
  have hsettled := hfinished.settled hg
  -- The scope binds the name in the graph, and the entry has the read.
  obtain ⟨y, hy, hname, hbinding⟩ := exists_of_mem_forall₂ h hx
  have hfind := hsettled.find?_of_mem hy
  obtain ⟨o, ho, href⟩ := exists_of_mem_mapM (mapM_refs hbinding) hr
  rw [hfinished.entry_settle hg] at ho
  obtain ⟨⟨past, p⟩, hreads⟩ := exists_visitReads_of_mem_refs hfinal hregular.sole ho
  have hvisited := hreads
  obtain ⟨around, before, after, hvisit, hpasses, ⟨n, t, hread, hfound, -, hlast, -⟩, -⟩ := hvisited
  obtain ⟨c, hscopes, hle, hlt, hresolve⟩ :=
    hvisit.exists_resolve hfinal hregular.sole hfirst hpasses hread hfound
  obtain ⟨c', hstands⟩ := hfinished.exists_standsFor hg hle hlt
  -- An entry has one name, so the node reads the name that the scope binds.
  obtain ⟨u, hu⟩ := hfinished.exists_find?_of_settle hg hfind
  have hkey : n.key = x.1.key := by
    rw [← hname]
    exact (hfinished.sound.valid.owns.find?_inj t u n y.1 y.2 hlast hu).2
  rw [hname] at hfind
  refine ⟨y.2, _, c, c', hfind, hbinding, ⟨past, around, p, o, hvisit, rfl, hreads, href⟩, hscopes,
    hstands, ?_⟩
  -- In the settled graph the name leads to the same entry, which belongs to one scope.
  have hentry : g.bindingOf? c' n = some y.2 := by
    rw [hstands.bindingOf?_eq, bindingOf?, hresolve, Option.bind_some, hlast]
  rw [bindingOf?, Option.bind_eq_some_iff] at hentry
  obtain ⟨v, hv, hentry⟩ := hentry
  have hreaches := hsettled.reaches_of_mem_chain hstands.reaches (resolve_eq_some hv).1
  rw [← resolve_congr hkey, hv, hsettled.find?_inj _ _ _ _ _ hreaches hs hentry hfind]

end Places

/-! ## Visible names -/

section Programs

open LexicalScopes.Graph LexicalScopes.Scope

variable {root : Node} {generated : Bool} {tree : Scope} {final : Builder} {g : Graph}
  {s : ScopeId} {l : Location}

namespace Graph.StandsFor

variable {g₀ : Graph} {c c' : ScopeId} {path : List ScopeId} {found : List Scope} {name : Scalar}
  {b : Binding} (h : g.StandsFor c' g₀ c) (hg : g.Settled 0) (hleads : g.Leads l 0 path)

include h hg hleads

/-- The search maps a name to the scope to which it leads from `c'`, exactly if it meets this scope
and no scope that is not around `c` and binds the name. -/
theorem mapsTo_iff (hcopies : List.Forall₂ g.Copied path found)
    (hresolve : g.resolve c' name = some s)
    (hbinding : ∃ e, g.find? s name = some e ∧ (g.entry e).toBinding = .ok b) :
    MapsTo (visibleFrom 0 found) path name s b ↔
      s ∈ path ∧ ∀ t ∈ path, t ∉ g₀.chain c → g.binds t name = false := by
  obtain ⟨d, hd, hchain, -⟩ := hleads.exists_chain hg
  rw [Graph.mapsTo_iff (hcopies.imp fun _ _ => Copied.shows), and_iff_left hbinding, ← hchain]
  refine (resolve_eq_some_iff_of_resolve hg.ranked hresolve).trans ?_
  refine and_congr_right fun _ => forall₂_congr fun t ht => ?_
  rw [h.mem_chain_iff t (hg.reaches_of_mem_chain hd ht)]

/-- If exactly the scopes around `c` contain the location, the search stops at `c'`. -/
theorem eq_chain (hothers : ∀ t, g.Reaches 0 t → t ∉ g₀.chain c → g.holds l t = .ok false)
    (hholds : ∀ t ∈ g₀.chain c, g.holds l t ≠ .ok false) : path = g.chain c' := by
  obtain ⟨d, hd, hchain, hnone⟩ := hleads.exists_chain hg
  have hmem : d ∈ g.chain c' := by
    rw [h.mem_chain_iff d hd]
    by_contra hnot
    have hheld := hothers d hd hnot
    have hne : d ≠ 0 := by
      rintro rfl
      exact hnot ((h.mem_chain_iff 0 .refl).1 (hg.root_mem_chain h.reaches))
    rw [hleads.holds_of_mem (hchain ▸ mem_chain_self g d) hne] at hheld
    cases hheld
  rcases Decidable.em (d = c') with rfl | hne
  · exact hchain.symm
  · -- Otherwise the search would go on in the next scope around `c'`.
    obtain ⟨t, ht, hparent⟩ := exists_child_of_mem_chain hg.ranked hmem hne
    have hreaches := hg.reaches_of_mem_chain h.reaches ht
    have hchild := (hg.mem_children_iff d t hd hreaches).2 hparent
    exact absurd (hnone t hchild) (hholds t ((h.mem_chain_iff t hreaches).1 ht))

end Graph.StandsFor

/-- Where names are declared before they are read, the search for the start of a read maps its name
to the scope and the binding that list the read, exactly if it meets this scope and no scope that
binds the name without being around the read. It does so if no scope but those around the read
contains its start. -/
theorem visible_at_reads_iff (hregular : root.Regular) (hordered : root.Ordered)
    (hfirst : root.DeclaresFirst) (h : analyze (.object root) generated = .ok tree) :
    ∃ final g, collect (.object root) = .ok final ∧
      final.graph.settle 0 final.isModule generated = .ok g ∧ g.tree 0 = .ok tree ∧
      List.Forall₂ (fun s scope => ∀ x ∈ scope.bindings, ∀ r ∈ x.2.refs,
        ∃ e scopes path visible, g.find? s x.1 = some e ∧ root.ReadAt final scopes e r ∧
          g.Meets tree r.range.start path ∧ tree.visible r.range.start = .ok visible ∧
          (MapsTo visible path x.1 s x.2 ↔
            s ∈ path ∧ ∀ t ∈ path, t ∉ scopes → g.binds t x.1 = false) ∧
          ((∀ t, g.Reaches 0 t → t ∉ scopes → g.holds r.range.start t = .ok false) →
            MapsTo visible path x.1 s x.2))
        (g.inside g.nextScope 0) tree.walk := by
  obtain ⟨final, loc, g, hfinal, hfinished, hg, htree⟩ := hregular.exists_of_analyze h
  refine ⟨final, g, hfinal, hg, htree, ?_⟩
  have hsettled := hfinished.settled hg
  have hshows := (List.forall₂_and_left _ _).2
    ⟨fun s hs => reaches_of_mem_inside (g := g) (s := 0) hs, forall₂_shows htree⟩
  refine hshows.imp fun s scope ⟨hs, hshows⟩ x hx r hr => ?_
  obtain ⟨e, scopes, c, c', hfind, hbinding, hread, rfl, hstands, hresolve⟩ :=
    hshows.exists_readAt hregular hfirst hfinal hfinished hg hs hx hr
  obtain ⟨path, found, hleads, hfound, hcopies⟩ :=
    exists_leads (hread.decides hregular hordered hfinal hfinished hg) htree
  have hiff := hstands.mapsTo_iff hsettled hleads hcopies hresolve ⟨e, hfind, hbinding⟩
  refine ⟨e, _, path, visibleFrom 0 found, hfind, hread, ⟨hleads, found, hfound, hcopies⟩, ?_, hiff,
    ?_⟩
  · rw [visible, hfound]
    rfl
  · -- If no other scope contains the place, the search meets the scopes around the read.
    intro hothers
    have hpath := hstands.eq_chain hsettled hleads hothers fun t ht =>
      hread.holds_ne_false hregular hordered hfinal hfinished hg ht
    refine hiff.2 ⟨hpath ▸ (resolve_eq_some hresolve).1, fun t ht hnot => absurd ?_ hnot⟩
    exact (hstands.mem_chain_iff t (hleads.reaches_of_mem ht)).1 (hpath ▸ ht)

end Programs

section Touching

open Sample LexicalScopes.Scope

/-- A block declares and reads a name of its own, and a read of the outer name touches its end. -/
def touchingProgram : Node :=
  program 16 [declaration "var" "b" 0, block 6 15 [declaration "let" "b" 7, reading "b" 13],
    reading "b" 15]

theorem visible_at_reads_iff_touching :
    ∃ tree, touchingProgram.Regular ∧ touchingProgram.Ordered ∧ touchingProgram.DeclaresFirst ∧
      analyze (.object touchingProgram) false = .ok tree ∧
      ∃ final g, collect (.object touchingProgram) = .ok final ∧
        final.graph.settle 0 final.isModule false = .ok g ∧ g.tree 0 = .ok tree ∧
        List.Forall₂ (fun s scope => ∀ x ∈ scope.bindings, ∀ r ∈ x.2.refs,
          ∃ e scopes path visible, g.find? s x.1 = some e ∧
            touchingProgram.ReadAt final scopes e r ∧ g.Meets tree r.range.start path ∧
            tree.visible r.range.start = .ok visible ∧
            (MapsTo visible path x.1 s x.2 ↔
              s ∈ path ∧ ∀ t ∈ path, t ∉ scopes → g.binds t x.1 = false) ∧
            ((∀ t, g.Reaches 0 t → t ∉ scopes → g.holds r.range.start t = .ok false) →
              MapsTo visible path x.1 s x.2))
          (g.inside g.nextScope 0) tree.walk := by
  obtain ⟨tree, htree⟩ :=
    exists_eq_ok (e := analyze (.object touchingProgram) false) (by decide +kernel)
  have hregular : touchingProgram.Regular := by decide +kernel
  have hordered : touchingProgram.Ordered := by decide +kernel
  have hfirst : touchingProgram.DeclaresFirst := by decide +kernel
  exact ⟨tree, hregular, hordered, hfirst, htree,
    visible_at_reads_iff hregular hordered hfirst htree⟩

/-- The outer read is listed in the outermost scope, but where it starts the name leads to the
binding of the block. -/
theorem touchingRead_is_shadowed :
    touchingProgram.Regular ∧ touchingProgram.Ordered ∧ touchingProgram.DeclaresFirst ∧
      ∃ tree, analyze (.object touchingProgram) false = .ok tree ∧
        ∃ x ∈ tree.bindings, ∃ r ∈ x.2.refs, ∃ visible,
          tree.visible r.range.start = .ok visible ∧
            ∃ v, lookup visible x.1 = some v ∧ v.binding ≠ x.2 := by
  refine ⟨by decide +kernel, by decide +kernel, by decide +kernel, ?_⟩
  have hshadowed : ((analyze (.object touchingProgram) false).toOption.any fun tree =>
      tree.bindings.any fun x => x.2.refs.any fun r =>
        (tree.visible r.range.start).toOption.any fun visible =>
          (lookup visible x.1).any fun v => v.binding != x.2) = true := by decide +kernel
  simp only [Option.any_eq_true, List.any_eq_true, bne_iff_ne] at hshadowed
  obtain ⟨tree, htree, x, hx, r, hr, visible, hvisible, hlookup⟩ := hshadowed
  exact ⟨tree, eq_ok_of_toOption htree, x, hx, r, hr, visible, eq_ok_of_toOption hvisible, hlookup⟩

end Touching

end LexicalScopes
