import LexicalScopes.Cli.FileTree
import LexicalScopes.Proofs.Reading

/-!
# Files that are written

A file is written at the place that its path leads to. On the way directories are made where nothing
stands; whatever stands elsewhere stays.
-/

namespace LexicalScopes.Cli

/-! ## Places -/

/-- The place that a name leads to from a directory. -/
def Place.enter (p : Place) (name : String) : Place :=
  if name == ".." then p.dropLast else p ++ [name]

namespace FileTree

variable {t t' : FileTree} {p q : Place} {name : String} {names : List String} {e : Entry}
  {workingDirectory : Place} {r : Route} {content : ByteArray}

theorem place_of_look (h : t.look p name = .ok (q, e)) : q = p.enter name := by
  unfold look at h
  unfold Place.enter
  split at h
  · rename_i hname
    cases h
    rw [hname]
    rfl
  · rename_i hname
    split at h
    · cases h
    · dsimp only at h
      split at h
      · cases h
        rw [if_neg (by simpa using hname)]
      · cases h

/-- Only a name other than `..` is not found, and nothing stands where it leads. -/
theorem get?_of_look_notFound (h : t.look p name = .error .notFound) :
    name ≠ ".." ∧ t.get? (p ++ [name]) = none := by
  unfold look at h
  split at h
  · cases h
  · rename_i hname
    refine ⟨hname, ?_⟩
    split at h
    · cases h
    · dsimp only at h
      split at h
      · cases h
      · rename_i hnone
        exact hnone

/-- Walking along names leads to the place that they name. -/
theorem place_of_walk (h : t.walk p names = .ok q) : q = names.foldl Place.enter p := by
  induction names generalizing p with
  | nil =>
    cases h
    rfl
  | cons name rest ih =>
    rw [walk] at h
    obtain ⟨⟨next, entry⟩, hlook, h⟩ := bind_eq_ok.1 h
    cases entry with
    | directory =>
      rw [List.foldl_cons, ← place_of_look hlook]
      exact ih h
    | file content => cases h

/-- The place of a path is that of its last name, in the directory that the names before it lead
to. -/
theorem place_of_walk_dropLast {last : String} (hlast : r.names.getLast? = some last)
    (hname : last ≠ "..")
    (h : t.walk (r.start workingDirectory) r.names.dropLast = .ok p) :
    r.place workingDirectory = p ++ [last] := by
  change r.names.foldl Place.enter (r.start workingDirectory) = p ++ [last]
  rw [← List.dropLast_append_getLast? last hlast, List.foldl_append, ← place_of_walk h]
  exact if_neg (by simpa using hname)

/-! ## Making directories -/

/-- The second tree has all of the first one, and directories where nothing stands in the first. -/
def Grows (t t' : FileTree) : Prop :=
  ∀ q, t'.get? q = t.get? q ∨ t.get? q = none ∧ t'.get? q = some .directory

theorem Grows.refl (t : FileTree) : t.Grows t := fun _ => .inl rfl

theorem Grows.trans {t'' : FileTree} (h : t.Grows t') (h' : t'.Grows t'') : t.Grows t'' := by
  intro q
  rcases h q with hq | ⟨hnone, hq⟩ <;> rcases h' q with hq' | ⟨hnone', hq'⟩
  · exact .inl (hq'.trans hq)
  · exact .inr ⟨hq.symm.trans hnone', hq'⟩
  · exact .inr ⟨hnone, hq'.trans hq⟩
  · rw [hq] at hnone'
    cases hnone'

theorem grows_makeDirectory (h : t.makeDirectory workingDirectory r = .ok t') : t.Grows t' := by
  obtain ⟨-, -, h⟩ := bind_eq_ok.1 h
  cases hlast : r.names.getLast? with
  | none =>
    rw [hlast] at h
    cases h
  | some last =>
    rw [hlast] at h
    obtain ⟨p, -, h⟩ := bind_eq_ok.1 h
    split at h
    · cases h
    · rename_i hlook
      cases h
      obtain ⟨-, hnone⟩ := get?_of_look_notFound hlook
      intro q
      rw [get?_put _ _ _ (List.append_ne_nil_of_right_ne_nil _ (List.cons_ne_nil _ _))]
      split
      · rename_i hq
        exact .inr ⟨hq ▸ hnone, rfl⟩
      · exact .inl rfl
    · cases h

theorem grows_keepOrMake (t : FileTree) (workingDirectory : Place) (r : Route) :
    t.Grows (t.keepOrMake workingDirectory r).1 := by
  unfold keepOrMake
  cases h : t.makeDirectory workingDirectory r with
  | ok t' => exact grows_makeDirectory h
  | error e =>
    dsimp only
    split <;> exact .refl t

theorem grows_ensureDirectory (t : FileTree) (workingDirectory : Place) (r : Route) :
    t.Grows (t.ensureDirectory workingDirectory r).1 := by
  fun_induction ensureDirectory t workingDirectory r with
  | case1 => exact .refl _
  | case2 r h hnames t' hensure ih =>
    rw [hensure] at ih
    exact ih.trans (grows_keepOrMake _ _ _)
  | case3 r h hnames hfailed ih => exact ih
  | case4 r h => exact grows_keepOrMake _ _ _

/-! ## Writing files -/

/-- A file is written at the place of its path. -/
theorem get?_write (h : t.write workingDirectory r content = .ok t') (q : Place) :
    t'.get? q = if q = r.place workingDirectory then some (.file content) else t.get? q := by
  obtain ⟨-, -, h⟩ := bind_eq_ok.1 h
  cases hlast : r.names.getLast? with
  | none =>
    rw [hlast] at h
    cases h
  | some last =>
    rw [hlast] at h
    obtain ⟨p, hwalk, h⟩ := bind_eq_ok.1 h
    have hput (hname : last ≠ "..") : (t.put (p ++ [last]) (.file content)).get? q =
        if q = r.place workingDirectory then some (.file content) else t.get? q := by
      rw [place_of_walk_dropLast hlast hname hwalk]
      exact get?_put _ _ _ (List.append_ne_nil_of_right_ne_nil _ (List.cons_ne_nil _ _))
    split at h
    · cases h
    · rename_i p' old hlook
      have hname : last ≠ ".." := by
        rintro rfl
        rw [look, if_pos rfl] at hlook
        cases hlook
      have hplace : p' = p ++ [last] :=
        (place_of_look hlook).trans (if_neg (by simpa using hname))
      cases h
      rw [hplace]
      exact hput hname
    · rename_i hlook
      cases h
      exact hput (get?_of_look_notFound hlook).1
    · cases h

/-- A file that is delivered has the content, and nothing else changes but that directories are
made. -/
theorem get?_deliver (h : t.deliver workingDirectory r content = (t', none)) :
    t'.get? (r.place workingDirectory) = some (.file content) ∧
      ∀ q ≠ r.place workingDirectory,
        t'.get? q = t.get? q ∨ t.get? q = none ∧ t'.get? q = some .directory := by
  unfold deliver at h
  have hgrows := grows_ensureDirectory t workingDirectory r.parent
  split at h
  · rename_i made hensure
    rw [hensure] at hgrows
    split at h
    · rename_i written hwrite
      cases h
      refine ⟨by rw [get?_write hwrite, if_pos rfl], fun q hq => ?_⟩
      rw [get?_write hwrite, if_neg hq]
      exact hgrows q
    · cases h
  · rename_i hfailed
    rw [h] at hfailed
    exact absurd rfl (hfailed t')

end FileTree

end LexicalScopes.Cli
