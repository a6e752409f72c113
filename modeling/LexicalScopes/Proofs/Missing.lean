import LexicalScopes.Proofs.Missing.Report
import LexicalScopes.Proofs.Missing.Run
import LexicalScopes.Proofs.Samples

/-!
# Missing parts are reported

Whatever fields and list entries a program loses, its analysis ends with a scope tree or with a
reported fault, unless the program gets one of six holes; and so does a run over its source. With
each of the holes alone the analysis can end without either.
-/

namespace LexicalScopes

variable {root ast : Node} {j k : Json}

/-! ## Checking -/

namespace Json

mutual

/-- The second value is left of the first. -/
def prunes? : Json → Json → Bool
  | _, .null => true
  | .scalar s, k => k == .scalar s
  | .array items, .array items' => prunesItems? items items'
  | .object n, .object m => prunesFields? n m
  | _, _ => false

def prunesItems? : List Json → List Json → Bool
  | [], items' => items'.isEmpty
  | _ :: rest, [] => prunesItems? rest []
  | item :: rest, item' :: rest' =>
    prunes? item item' && prunesItems? rest rest' || prunesItems? rest (item' :: rest')

def prunesFields? : List (String × Json) → List (String × Json) → Bool
  | [], m => m.isEmpty
  | _ :: n, [] => prunesFields? n []
  | (key, value) :: n, (key', value') :: m =>
    key == key' && prunes? value value' && prunesFields? n m ||
      prunesFields? n ((key', value') :: m)

end

theorem null_or_prunes (h : j.prunes? k = true) :
    k = .null ∨ (∃ s, j = .scalar s ∧ k = .scalar s) ∨
      (∃ items items', j = .array items ∧ k = .array items' ∧ prunesItems? items items' = true) ∨
        ∃ n m, j = .object n ∧ k = .object m ∧ prunesFields? n m = true := by
  unfold prunes? at h
  split at h
  · exact .inl rfl
  · exact .inr (.inl ⟨_, rfl, beq_iff_eq.1 h⟩)
  · exact .inr (.inr (.inl ⟨_, _, rfl, rfl, h⟩))
  · exact .inr (.inr (.inr ⟨_, _, rfl, rfl, h⟩))
  · cases h

mutual

theorem prunes_of_check : (j k : Json) → (h : j.prunes? k = true) → Prunes j k
  | .scalar s, k, h => by
    rcases null_or_prunes h with rfl | ⟨_, hj, rfl⟩ | ⟨_, _, hj, -⟩ | ⟨_, _, hj, -⟩
    · exact .null _
    · exact hj ▸ .scalar _
    · cases hj
    · cases hj
  | .array items, k, h => by
    rcases null_or_prunes h with rfl | ⟨_, hj, -⟩ | ⟨_, items', hj, rfl, hitems⟩ | ⟨_, _, hj, -⟩
    · exact .null _
    · cases hj
    · cases hj
      exact prunes_of_checkItems items items' hitems
    · cases hj
  | .object n, k, h => by
    rcases null_or_prunes h with rfl | ⟨_, hj, -⟩ | ⟨_, _, hj, -⟩ | ⟨_, m, hj, rfl, hfields⟩
    · exact .null _
    · cases hj
    · cases hj
    · cases hj
      exact prunes_of_checkFields n m hfields

theorem prunes_of_checkItems : (items items' : List Json) →
    (h : prunesItems? items items' = true) → Prunes (.array items) (.array items')
  | [], items', h => by
    rw [prunesItems?, List.isEmpty_iff] at h
    exact h ▸ .noItems
  | item :: rest, [], h => .dropItem item (prunes_of_checkItems rest [] h)
  | item :: rest, item' :: rest', h => by
    rw [prunesItems?, Bool.or_eq_true, Bool.and_eq_true] at h
    rcases h with ⟨hitem, hrest⟩ | hrest
    · exact .item (prunes_of_check item item' hitem) (prunes_of_checkItems rest rest' hrest)
    · exact .dropItem item (prunes_of_checkItems rest (item' :: rest') hrest)

theorem prunes_of_checkFields : (n m : Node) → (h : prunesFields? n m = true) →
    Prunes (.object n) (.object m)
  | [], m, h => by
    rw [prunesFields?, List.isEmpty_iff] at h
    exact h ▸ .noFields
  | (key, value) :: n, [], h => .dropField key value (prunes_of_checkFields n [] h)
  | (key, value) :: n, (key', value') :: m, h => by
    rw [prunesFields?, Bool.or_eq_true, Bool.and_eq_true, Bool.and_eq_true, beq_iff_eq] at h
    rcases h with ⟨⟨rfl, hvalue⟩, hrest⟩ | hrest
    · exact .field key (prunes_of_check value value' hvalue) (prunes_of_checkFields n m hrest)
    · exact .dropField key value (prunes_of_checkFields n ((key', value') :: m) hrest)

end

end Json

instance (root : Node) : Decidable root.IsProgram :=
  decidable_of_iff (root.isAny ["Program"] = true ∧
      FieldKind.objects.admits (root.get "errors") = true ∧
      (∀ n ∈ (Json.object root).objects, (n.map (·.1)).Nodup) ∧
      (∀ n ∈ (Json.object root).objects, n.isGrammatical = true) ∧
      ∀ n ∈ (Json.object root).inside, n.isAny ("Program" :: NodeType.aliases) = false)
    ⟨fun ⟨htype, herrors, hdistinct, hgrammatical, hinner⟩ =>
        ⟨htype, herrors, hdistinct, hgrammatical, hinner⟩,
      fun h => ⟨h.type, h.errors, h.distinct, h.grammatical, h.inner⟩⟩

/-! ## Holes -/

namespace Hole

open Sample

/-- The holes. -/
def all : List Hole := [.declarator, .specifier, .firstParameter, .property, .place, .lastColumn]

/-- A program around the part that the hole leaves out. -/
def around (hole : Hole) (part : Json) : Node :=
  match hole with
  | .declarator => program 5
      [node "VariableDeclaration" 0 5 [("kind", .string "var"), ("declarations", .array [part])]]
  | .specifier => program 16
      [node "ImportDeclaration" 0 16 [("specifiers", .array [part]),
        ("source", .object (node "Literal" 14 16 [("value", .string "")]))]]
  | .firstParameter => program 16
      [node "FunctionDeclaration" 0 16 [("id", .object (identifier "f" 9)),
        ("params", .array [part]), ("body", .object (block 14 16 []))]]
  | .property => program 10
      [declaration "var" "a" 0, node "ExpressionStatement" 7 10
        [("expression", .object (node "MemberExpression" 7 10
          [("object", .object (identifier "a" 7)), ("property", part)]))]]
  | .place =>
      [("type", .string "Program"), ("loc", .object [("start", Sample.place 0), ("end", part)]),
        ("body", .array [])]
  | .lastColumn =>
      let stop : Json := .object [("line", .int 1), ("column", part)]
      let pair : Node := [("type", .string "SequenceExpression"),
        ("loc", .object [("start", Sample.place 8), ("end", stop)]),
        ("expressions", list [node "Literal" 8 9 [("value", .int 0)], identifier "a" 11])]
      program 15 [declaration "var" "a" 0, node "ExpressionStatement" 7 15
        [("expression", .object (node "CallExpression" 7 15
          [("callee", .object pair), ("arguments", .array [])]))]]

/-- The part that the hole leaves out. -/
def part : Hole → Json
  | .declarator => .object (node "VariableDeclarator" 4 5 [("id", .object (identifier "a" 4))])
  | .specifier =>
    .object (node "ImportDefaultSpecifier" 7 8 [("local", .object (identifier "a" 7))])
  | .firstParameter => .object (identifier "a" 11)
  | .property => .object (identifier "b" 9)
  | .place => Sample.place 16
  | .lastColumn => .int 12

/-- What is left of the part. -/
def remnant : Hole → Json
  | .place => .object [("line", .int 1)]
  | _ => .null

/-- How the hole is met: something is asked of null, or a place has no column. -/
def misreading : Hole → Misreading
  | .place => .missing (.string "column")
  | .lastColumn => .successor .null
  | _ => .method .null "get"

end Hole

/-- The reading ends with this misreading. -/
def endsIn {α : Type} (m : Misreading) : Except Cause α → Bool
  | .error (.misread m') => m' == m
  | _ => false

theorem eq_of_endsIn {α : Type} {m : Misreading} {x : Except Cause α} (h : endsIn m x = true) :
    x = .error (.misread m) := by
  unfold endsIn at h
  split at h
  · rw [beq_iff_eq.1 h]
  · cases h

/-- Each of the holes alone can end the analysis without a scope tree and without a report. -/
theorem hole_ends_analysis (hole : Hole) :
    (hole.around hole.part).IsProgram ∧
      Json.Prunes (.object (hole.around hole.part)) (.object (hole.around hole.remnant)) ∧
      Hole.all.filter (Json.object (hole.around hole.remnant)).hasHole = [hole] ∧
      analyze (.object (hole.around hole.remnant)) false = .error (.misread hole.misreading) := by
  -- Six trees of a few nodes each: the kernel evaluates the checks and the analysis.
  refine ⟨?_, Json.prunes_of_check _ _ ?_, ?_, eq_of_endsIn ?_⟩
  · cases hole <;> decide +kernel
  · cases hole <;> decide +kernel
  · cases hole <;> decide +kernel
  · cases hole <;> decide +kernel

/-- The declaration `var a` loses its declarator. -/
theorem null_declarator_ends_analysis :
    (Hole.declarator.around Hole.declarator.part).IsProgram ∧
      Json.Prunes (.object (Hole.declarator.around Hole.declarator.part))
        (.object (Hole.declarator.around .null)) ∧
      analyze (.object (Hole.declarator.around .null)) false =
        .error (.misread (.method .null "get")) := by
  obtain ⟨hprogram, hprunes, -, hmisread⟩ := hole_ends_analysis .declarator
  exact ⟨hprogram, hprunes, hmisread⟩

/-! ## Recovered errors -/

/-- The errors of the parser can be read if none of them is missing. -/
theorem exists_recoveredIssues (herrors : FieldKind.objects.admits (ast.get "errors") = true)
    (hwhole : (ast.get "errors").listsNull = false) :
    ∃ issues, recoveredIssues (.object ast) = .ok issues := by
  have hentries : ∃ items, (ast.get "errors").entries = .ok items ∧
      ∀ item ∈ items, ∃ issue, ParseIssue.ofEntry item = .ok issue := by
    rcases FieldKind.admits_objects_iff.1 herrors with hnull | ⟨items, hlist, hitems⟩
    · exact ⟨[], by rw [hnull]; rfl, nofun⟩
    · rw [hlist] at hwhole
      refine ⟨items, by rw [hlist]; rfl, fun item hitem => ?_⟩
      rcases FieldKind.admits_object_iff.1 (hitems item hitem) with rfl | ⟨m, rfl⟩
      · have hnull := List.any_eq_false.1 hwhole _ hitem
        exact absurd rfl hnull
      · exact ⟨_, rfl⟩
  obtain ⟨items, hitems, hissues⟩ := hentries
  obtain ⟨issues, hissues⟩ := exists_mapM_eq_ok hissues
  refine ⟨issues, ?_⟩
  rw [recoveredIssues, Json.node?]
  dsimp only
  rw [hitems, ok_bind, hissues]

/-! ## Programs with missing parts -/

/-- What is left of a program without getting a hole is analysed, or the fault is reported. A run to
which the parser gives it ends in a report that holds the scopes or the fault. -/
theorem missing_parts_reported (hroot : root.IsProgram)
    (hprunes : Json.Prunes (.object root) (.object ast))
    (hwhole : ∀ hole, (Json.object ast).hasHole hole = false) :
    (∀ generated, (∃ tree, analyze (.object ast) generated = .ok tree) ∨
      ∃ e, analyze (.object ast) generated = .error (.reported e)) ∧
    ∀ (parser : Parser) (job : Job) (w : World), job.Submits parser (.object ast) →
      (job.tolerant.isPresent = true → (ast.get "errors").listsNull = false) →
      ∃ report w', job.run parser w = .ok report w' ∧
        report.Settles w.cache (analyze (.object ast) job.generated.isPresent) := by
  refine ⟨fun generated => ?_, fun parser job w hsubmits herrors => ?_⟩
  · exact (answers_analyze hroot hprunes hwhole generated).ok_or_reported
  · refine hsubmits.yields_run rfl (fun htolerant => ?_) (answers_analyze hroot hprunes hwhole _)
    have hkeys := hroot.distinct root Json.mem_objects_self
    exact exists_recoveredIssues ((hprunes.get hkeys "errors").admits hroot.errors)
      (herrors htolerant)

/-! ## A declarator without a target -/

/-- The declarator of `var a` without its target. -/
def targetlessProgram : Node :=
  Hole.declarator.around (.object (Sample.node "VariableDeclarator" 4 5 []))

def targetlessJob : Job := { source := .string "var a" }

theorem missing_parts_reported_targetless :
    ((∃ tree, analyze (.object targetlessProgram) false = .ok tree) ∨
      ∃ e, analyze (.object targetlessProgram) false = .error (.reported e)) ∧
    ∃ report w', targetlessJob.run (fun _ => .tree (.object targetlessProgram)) {} = .ok report w' ∧
      report.Settles {} (analyze (.object targetlessProgram) false) := by
  have hwhole : ∀ hole, (Json.object targetlessProgram).hasHole hole = false := by
    intro hole
    cases hole <;> decide +kernel
  have hsubmits : targetlessJob.Submits (fun _ => .tree (.object targetlessProgram))
      (.object targetlessProgram) :=
    { analyze := rfl
      answer := rfl
      source := Option.isSome_iff_exists.1 (by decide +kernel)
      name := Option.isSome_iff_exists.1 (by decide +kernel)
      text := fun h => absurd rfl h
      storage := nofun }
  have hprogram : (Hole.declarator.around Hole.declarator.part).IsProgram := by decide +kernel
  have hprunes : Json.Prunes (.object (Hole.declarator.around Hole.declarator.part))
      (.object targetlessProgram) := Json.prunes_of_check _ _ (by decide +kernel)
  obtain ⟨hanalysis, hrun⟩ := missing_parts_reported hprogram hprunes hwhole
  exact ⟨hanalysis false, hrun _ targetlessJob {} hsubmits fun _ => by decide +kernel⟩

end LexicalScopes
