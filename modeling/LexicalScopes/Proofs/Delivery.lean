import LexicalScopes.Cli.Command
import LexicalScopes.Proofs.Delivery.Contents
import LexicalScopes.Proofs.Delivery.Files
import LexicalScopes.Proofs.Samples
import LexicalScopes.Proofs.Sharing.Runs

/-!
# Delivered, or nothing left behind

A call that writes the scope tree or lists the scopes around a location ends with 0 exactly if
its result was delivered in full. It ends with status 1 only if there is no result, and then it has
written and made nothing and has complained.
-/

namespace LexicalScopes.Cli

/-! ## Results -/

/-- The input can be read, the parser answers with a tree, and these are its scopes. -/
def Request.HasScopes (r : Request) (parser : Parser) (files : FileTree)
    (workingDirectory : Place) (tree : Scope) : Prop :=
  ∃ name source ast, readInput files workingDirectory r.input = .ok (name, source) ∧
    parser ⟨r.asModule, .string source, .bool !r.strict⟩ = .tree ast ∧
    analyze ast r.generated = .ok tree

/-- The console takes the lines, one after the other. -/
def Console.Takes (console : Console) : (before lines : List String) → Prop
  | _, [] => True
  | before, line :: rest => console before line = true ∧ console.Takes (before ++ [line]) rest

namespace Delivery

/-- The output is these lines, all of them taken by the console, and no file is touched. -/
structure Prints (d : Delivery) (console : Console) (files : FileTree) (lines : List String) :
    Prop where
  output : d.output = lines
  taken : console.Takes [] lines
  files : d.files = files

/-- The file at the place holds the code points of the text, none of them half of a pair, in UTF-8.
There is no output, and at other places nothing changes but that directories are made where nothing
stood. -/
structure Stores (d : Delivery) (files : FileTree) (place : Place) (text : String) : Prop where
  output : d.output = []
  content : ∃ plain : String, plain.toList.map Char.toNat = Text.codes text ∧
    d.files.get? place = some (.file plain.toUTF8)
  others : ∀ q ≠ place, d.files.get? q = files.get? q ∨
    files.get? q = none ∧ d.files.get? q = some .directory

/-- What a command makes of a scope tree is delivered in full: a text of an object that shows the
tree, once, on the console or with a line feed in a file, or for every scope around a location the
line about it. -/
def Fulfils (d : Delivery) (command : Command) (console : Console) (files : FileTree)
    (workingDirectory : Place) (tree : Scope) : Prop :=
  match command with
  | .scopes out => ∃ shown text, tree.ShownBy shown ∧ Json.IsTextOf text (.object shown) ∧
    if out.getD "" = "" then d.Prints console files [text]
    else d.Stores files ((Route.ofText (out.getD "")).place workingDirectory) (text ++ "\n")
  | .find line column => ∃ scopes lines, tree.Surrounds ⟨line, column⟩ scopes ∧
    List.Forall₂ Scope.ListedBy scopes lines ∧ d.Prints console files lines

end Delivery

/-- What a call delivers. -/
def Outcome.delivery (o : Outcome) : Delivery := ⟨o.ending, o.output, o.files⟩

/-- A line that starts with `ERROR`. -/
def isComplaint (line : String) : Prop := ∃ rest, line = "ERROR" ++ rest

/-! ## Preparing -/

/-- What comes of reading and analysing the input. -/
inductive Prepared.Comes (r : Request) (parser : Parser) (files : FileTree)
    (workingDirectory : Place) : Prepared → Prop
  | scopes {p : Prepared} {tree : Scope} {issues : List ParseIssue} :
    p.result = .ok (tree, issues) → r.HasScopes parser files workingDirectory tree →
    (r.strict = true → issues = []) → Comes r parser files workingDirectory p
  | refused {p : Prepared} {line : String} :
    p.result = .error (.status 1) → line ∈ p.messages → isComplaint line →
    (∀ tree, ¬ r.HasScopes parser files workingDirectory tree) →
    Comes r parser files workingDirectory p
  | crash {p : Prepared} {reason : Crash} : p.result = .error (.crash reason) →
    (∀ name source, readInput files workingDirectory r.input = .ok (name, source) →
      ∃ ast, parser ⟨r.asModule, .string source, .bool !r.strict⟩ = .tree ast) →
    Comes r parser files workingDirectory p

theorem isComplaint.append {line : String} (h : isComplaint line) (rest : String) :
    isComplaint (line ++ rest) := by
  obtain ⟨first, rfl⟩ := h
  exact ⟨first ++ rest, String.append_assoc⟩

theorem isComplaint_notFound : isComplaint "ERROR: Input file not found: " :=
  ⟨": Input file not found: ", by decide⟩

/-- An input that cannot be had is complained about, unless the call breaks off. -/
theorem readInput_eq_error {files : FileTree} {workingDirectory : Place} {input : String}
    {refused : Refused} (h : readInput files workingDirectory input = .error refused) :
    (∃ reason, refused.ending = .crash reason) ∨
      refused.ending = .status 1 ∧ ∃ line ∈ refused.messages, isComplaint line := by
  simp only [readInput] at h
  split at h
  · cases h
    exact .inl ⟨_, rfl⟩
  · split at h
    · cases h
      have hcomplaint : isComplaint "ERROR: Failed to read " := ⟨": Failed to read ", by decide⟩
      exact .inr ⟨rfl, _, List.mem_singleton_self _,
        ((hcomplaint.append _).append _).append _⟩
    · cases h
      exact .inr ⟨rfl, _, List.mem_singleton_self _, isComplaint_notFound.append _⟩
    · cases h
      exact .inr ⟨rfl, _, List.mem_singleton_self _, isComplaint_notFound.append _⟩
    · cases h
      exact .inl ⟨_, rfl⟩
    · split at h
      · cases h
        exact .inl ⟨_, rfl⟩
      · cases h

/-- The text of a file has a hash. -/
theorem exists_hash_of_readInput {files : FileTree} {workingDirectory : Place}
    {input name source : String}
    (h : readInput files workingDirectory input = .ok (name, source)) :
    ∃ hash, Digest.ofText? source = some hash := by
  simp only [readInput] at h
  split at h
  · cases h
  · split at h
    · cases h
    · cases h
    · cases h
    · cases h
    · split at h
      · cases h
      · rename_i text htext
        cases h
        obtain ⟨plain, -, rfl⟩ := Option.map_eq_some_iff.1 htext
        exact ⟨_, by rw [Digest.ofText?, Text.plain?_ofPlain]; rfl⟩

/-- The failure of an analysis is complained about. -/
theorem exists_complaint (report : Report) {e : ScopeError} (h : report.error = some e) :
    ∃ line ∈ diagnostics report, isComplaint line := by
  refine ⟨"ERROR " ++ report.parsed.name.text ++ ": " ++ e.message, ?_, ?_⟩
  · simp [diagnostics, h]
  · have hcomplaint : isComplaint "ERROR " := ⟨" ", by decide⟩
    exact ((hcomplaint.append _).append _).append _

section Prepare

variable {r : Request} {parser : Parser} {files : FileTree} {workingDirectory : Place}
  {name source : String}

theorem Request.call_job :
    (r.job name source).call = ⟨r.asModule, .string source, .bool !r.strict⟩ := by
  cases h : r.asModule <;> simp [job, Job.call, h, Json.string]

theorem Request.hasScopes_iff
    (hread : readInput files workingDirectory r.input = .ok (name, source)) {tree : Scope} :
    r.HasScopes parser files workingDirectory tree ↔
      ∃ ast, parser (r.job name source).call = .tree ast ∧ analyze ast r.generated = .ok tree := by
  rw [HasScopes, call_job]
  constructor
  · rintro ⟨name', source', ast, hread', hanswer, hanalyze⟩
    cases hread.symm.trans hread'
    exact ⟨ast, hanswer, hanalyze⟩
  · rintro ⟨ast, hanswer, hanalyze⟩
    exact ⟨name, source, ast, hread, hanswer, hanalyze⟩

/-- Nothing comes of a null tree. -/
theorem isNull_of_analyze_eq_ok {ast : Json} {generated : Bool} {tree : Scope}
    (h : analyze ast generated = .ok tree) : ast.isNull = false := by
  cases hnull : ast.isNull with
  | false => rfl
  | true =>
    unfold Json.isNull at hnull
    split at hnull
    · cases h
    · cases hnull

theorem Request.comes_prepareSource
    (hread : readInput files workingDirectory r.input = .ok (name, source)) :
    (r.prepareSource parser name source).Comes r parser files workingDirectory := by
  have huse : (r.job name source).useCache = false := rfl
  obtain ⟨t, hrun⟩ := Job.exists_run_eq_ending parser huse {}
  have hreads := (r.job name source).reads_prepared parser
  unfold prepareSource
  generalize (r.job name source).prepared parser = prepared at hrun hreads
  -- Of an answer that is an error there are no scopes.
  have hnone {e : ParserError} (hanswer : parser (r.job name source).call = .error e)
      (tree : Scope) : ¬ r.HasScopes parser files workingDirectory tree := fun hscopes => by
    obtain ⟨ast, hanswer', -⟩ := (hasScopes_iff hread).1 hscopes
    cases hanswer.symm.trans hanswer'
  have htree (h : ∃ ast, parser (r.job name source).call = .tree ast) (name' source' : String)
      (hread' : readInput files workingDirectory r.input = .ok (name', source')) :
      ∃ ast, parser ⟨r.asModule, .string source', .bool !r.strict⟩ = .tree ast := by
    cases hread.symm.trans hread'
    rwa [call_job] at h
  cases hreads with
  | @refused e hanswer htolerant =>
    rw [hrun]
    have hcomplaint : isComplaint "ERROR: Parsing failed: " := ⟨": Parsing failed: ", by decide⟩
    exact .refused rfl (List.mem_append_right _ (List.mem_singleton_self _))
      (hcomplaint.append _) (hnone hanswer)
  | @tolerated e hash hanswer hhash =>
    rw [hrun]
    exact .refused rfl (List.mem_append_right _ (List.mem_singleton_self _))
      ⟨": Parsing failed; no AST produced.", by decide⟩ (hnone hanswer)
  | @tree ast issues hash hanswer hstrict hhash =>
    have hiff {tree : Scope} : r.HasScopes parser files workingDirectory tree ↔
        analyze ast r.generated = .ok tree := by
      rw [hasScopes_iff hread]
      constructor
      · rintro ⟨ast', hanswer', hanalyze⟩
        cases hanswer.symm.trans hanswer'
        exact hanalyze
      · exact fun hanalyze => ⟨ast, hanswer, hanalyze⟩
    have hanalysis : (r.job name source).analysis
        ⟨ast, issues, hash, (r.job name source).name⟩ = reportable (analyze ast r.generated) := rfl
    rw [hrun, ok_bind, Job.concluded]
    cases hnull : ast.isNull with
    | true =>
      have hcomplaint : isComplaint "ERROR: Parsing failed; no AST produced." :=
        ⟨": Parsing failed; no AST produced.", by decide⟩
      refine .refused ?_ ?_ hcomplaint fun tree hscopes => ?_
      · simp [World.ending, hnull]
      · simp [World.ending, hnull]
      · have hsome := isNull_of_analyze_eq_ok (hiff.1 hscopes)
        cases hnull.symm.trans hsome
    | false =>
      rw [if_neg (by simp [job])]
      rw [Job.reportOn, hanalysis]
      cases hanalyze : analyze ast r.generated with
      | ok tree =>
        have hnone : r.strict = true → issues = [] := fun hrequest => by
          refine hstrict ?_
          change (Json.bool !r.strict).isPresent = false
          rw [hrequest]
          rfl
        refine .scopes ?_ (hiff.2 hanalyze) hnone
        simp [World.ending, reportable, hnull]
      | error fault =>
        have hnone (tree : Scope) : ¬ r.HasScopes parser files workingDirectory tree :=
          fun hscopes => by cases hanalyze.symm.trans (hiff.1 hscopes)
        cases fault with
        | reported e =>
          obtain ⟨line, hline, hcomplaint⟩ := exists_complaint
            ⟨⟨ast, issues, hash, (r.job name source).name⟩, none, some e⟩ rfl
          refine .refused ?_ ?_ hcomplaint hnone
          · simp [World.ending, reportable, hnull]
          · simp [World.ending, reportable, hnull, hline]
        | misread m => exact .crash rfl (htree ⟨ast, hanswer⟩)
  | unreadable hcause =>
    rw [hrun]
    refine .crash rfl (htree ?_)
    rcases hcause with hanswer | hhash | hstore
    · exact hanswer
    · obtain ⟨hash, hhash'⟩ := exists_hash_of_readInput hread
      cases hhash.symm.trans hhash'
    · exact absurd rfl hstore

theorem comes_prepare (r : Request) (parser : Parser) (files : FileTree)
    (workingDirectory : Place) :
    (r.prepare parser files workingDirectory).Comes r parser files workingDirectory := by
  unfold Request.prepare
  split
  · rename_i refused hread
    rcases readInput_eq_error hread with ⟨reason, hending⟩ | ⟨hending, line, hline, hcomplaint⟩
    · exact .crash (congrArg Except.error hending) fun name source hread' => by
        cases hread.symm.trans hread'
    · refine .refused (congrArg Except.error hending) hline hcomplaint ?_
      rintro tree ⟨name, source, ast, hread', -⟩
      cases hread.symm.trans hread'
  · rename_i name source hread
    exact Request.comes_prepareSource hread

end Prepare

/-! ## Delivering -/

section Deliver

variable {tree : Scope} {issues : List ParseIssue} {strict : Bool} {files : FileTree}
  {workingDirectory : Place} {console : Console} {code : Nat}

theorem Console.writeAfter_eq_true_iff {before lines written : List String} :
    console.writeAfter before lines = (written, true) ↔
      written = before ++ lines ∧ console.Takes before lines := by
  induction lines generalizing before with
  | nil => simp [writeAfter, Takes, eq_comm]
  | cons line rest ih =>
    rw [writeAfter, Takes]
    split
    · rename_i htaken
      rw [ih, List.append_assoc, List.singleton_append]
      simp [htaken]
    · rename_i hrefused
      simp [hrefused]

/-- Lines are written with the status that they are written for, or else the call breaks off. -/
theorem prints_of_status {lines : List String} {status : Nat}
    (h : (printLines console lines (.status status) files).ending = .status code) :
    code = status ∧ (printLines console lines (.status status) files).Prints console files
      lines := by
  unfold printLines at h ⊢
  split at h
  · rename_i written hwritten
    obtain ⟨rfl, htaken⟩ := Console.writeAfter_eq_true_iff.1 hwritten
    cases h
    exact ⟨rfl, rfl, htaken, rfl⟩
  · cases h

/-- A tree that is written is written in full. A strict run has no issues that could spoil the
status. -/
theorem fulfils_deliverTree {out : Option String} (hissues : strict = true → issues = [])
    (h : (deliverTree tree issues strict out files workingDirectory console).ending =
      .status code) :
    code = 0 ∧ (deliverTree tree issues strict out files workingDirectory console).Fulfils
      (.scopes out) console files workingDirectory tree := by
  have hstatus : (if strict && !issues.isEmpty then 1 else 0) = 0 := by
    cases hstrict : strict with
    | false => rfl
    | true => rw [hissues hstrict]; rfl
  obtain ⟨shown, hshown, hshows⟩ := tree.exists_shownBy
  have htext : Json.IsTextOf tree.toJson.print (.object shown) := hshown ▸ Json.isTextOf_print _
  unfold deliverTree at h ⊢
  rw [hstatus] at h ⊢
  dsimp only at h ⊢
  split at h
  · rename_i hpath
    obtain ⟨hcode, hprints⟩ := prints_of_status h
    rw [if_pos hpath]
    exact ⟨hcode, shown, _, hshows, htext, by rwa [if_pos hpath]⟩
  · rename_i hpath
    rw [if_neg hpath]
    cases hplain : Text.plain? (tree.toJson.print ++ "\n") with
    | none =>
      rw [hplain] at h
      dsimp only at h
      split at h <;> cases h
    | some plain =>
      rw [hplain] at h
      dsimp only at h ⊢
      split at h
      · rename_i written hdeliver
        obtain ⟨hplace, hothers⟩ := FileTree.get?_deliver hdeliver
        cases h
        refine ⟨rfl, shown, _, hshows, htext, ?_⟩
        rw [if_neg hpath]
        exact ⟨rfl, ⟨plain, Text.plain?_eq_some_iff.1 hplain, hplace⟩, hothers⟩
      · cases h

/-- Scopes that are listed are listed in full. -/
theorem fulfils_deliverEnclosing {line column : Json}
    (h : (deliverEnclosing tree ⟨line, column⟩ files console).ending = .status code) :
    code = 0 ∧ (deliverEnclosing tree ⟨line, column⟩ files console).Fulfils (.find line column)
      console files workingDirectory tree := by
  unfold deliverEnclosing at h ⊢
  cases henclosing : tree.enclosing ⟨line, column⟩ with
  | ok scopes =>
    rw [henclosing] at h
    obtain ⟨hcode, hprints⟩ := prints_of_status h
    refine ⟨hcode, scopes, _, Scope.enclosing_eq_ok_iff.1 henclosing, ?_, hprints⟩
    rw [List.forall₂_map_right_iff, List.forall₂_same]
    exact fun s _ => s.listedBy_scopeLine
  | error fault =>
    rw [henclosing] at h
    cases h

/-- What a request makes of a scope tree. -/
def Request.deliver (r : Request) (tree : Scope) (issues : List ParseIssue) (files : FileTree)
    (workingDirectory : Place) (console : Console) : Delivery :=
  match r.command with
  | .scopes out => deliverTree tree issues r.strict out files workingDirectory console
  | .find line column => deliverEnclosing tree ⟨line, column⟩ files console

theorem Request.fulfils_deliver {r : Request} (hissues : r.strict = true → issues = [])
    (h : (r.deliver tree issues files workingDirectory console).ending = .status code) :
    code = 0 ∧ (r.deliver tree issues files workingDirectory console).Fulfils r.command console
      files workingDirectory tree := by
  unfold deliver at h ⊢
  cases hcommand : r.command with
  | scopes out =>
    rw [hcommand] at h
    exact fulfils_deliverTree hissues h
  | find line column =>
    rw [hcommand] at h
    exact fulfils_deliverEnclosing h

end Deliver

section Run

variable {r : Request} {parser : Parser} {files : FileTree} {workingDirectory : Place}
  {console : Console}

theorem Request.run_of_error {ending : Ending}
    (h : (r.prepare parser files workingDirectory).result = .error ending) :
    r.run parser files workingDirectory console =
      ⟨ending, [], (r.prepare parser files workingDirectory).messages, files,
        (r.prepare parser files workingDirectory).calls⟩ := by
  simp only [run, h]

theorem Request.delivery_run {tree : Scope} {issues : List ParseIssue}
    (h : (r.prepare parser files workingDirectory).result = .ok (tree, issues)) :
    (r.run parser files workingDirectory console).delivery =
      r.deliver tree issues files workingDirectory console := by
  simp only [run, h]
  rfl

end Run

/-- A call whose input can be read ends with status 1 whenever the parser refuses the input. -/
theorem ending_of_parser_error {r : Request} {parser : Parser} {files : FileTree}
    {workingDirectory : Place} {name source : String} {e : ParserError}
    (hread : readInput files workingDirectory r.input = .ok (name, source))
    (hanswer : parser ⟨r.asModule, .string source, .bool !r.strict⟩ = .error e)
    (console : Console) :
    (r.run parser files workingDirectory console).ending = .status 1 := by
  cases comes_prepare r parser files workingDirectory with
  | scopes hresult hscopes _ =>
    obtain ⟨name', source', ast, hread', hanswer', -⟩ := hscopes
    cases hread.symm.trans hread'
    cases hanswer.symm.trans hanswer'
  | refused hresult _ _ _ => rw [Request.run_of_error hresult]
  | crash _ htree =>
    obtain ⟨ast, hanswer'⟩ := htree name source hread
    cases hanswer.symm.trans hanswer'

/-- Whatever the console takes, a call that ends with a status ends with 0 exactly if the scopes of
the input were delivered in full. It ends with 1 otherwise; then it has written no output and
touched no file, and has complained. -/
theorem status_eq_zero_iff_fulfils {arguments : List String} {r : Request}
    (hrequest : Request.ofArguments arguments = .ok r) (parser : Parser) (files : FileTree)
    (workingDirectory : Place) (console : Console) {code : Nat}
    (hstatus : (run parser files workingDirectory arguments console).ending = .status code) :
    (code = 0 ∨ code = 1) ∧
      (code = 0 ↔ ∃ tree, r.HasScopes parser files workingDirectory tree ∧
        (run parser files workingDirectory arguments console).delivery.Fulfils r.command console
          files workingDirectory tree) ∧
      (code = 1 →
        (run parser files workingDirectory arguments console).delivery.Prints console files [] ∧
        ∃ line ∈ (run parser files workingDirectory arguments console).messages,
          isComplaint line) := by
  have hrun : run parser files workingDirectory arguments console =
      r.run parser files workingDirectory console := by
    rw [run, hrequest]
  rw [hrun] at hstatus ⊢
  cases comes_prepare r parser files workingDirectory with
  | @scopes tree issues hresult hscopes hissues =>
    have hdelivery : (r.run parser files workingDirectory console).delivery =
        r.deliver tree issues files workingDirectory console := Request.delivery_run hresult
    have hending : (r.deliver tree issues files workingDirectory console).ending = .status code :=
      hdelivery ▸ hstatus
    obtain ⟨rfl, hfulfils⟩ := Request.fulfils_deliver hissues hending
    rw [← hdelivery] at hfulfils
    exact ⟨.inl rfl, ⟨fun _ => ⟨tree, hscopes, hfulfils⟩, fun _ => rfl⟩, nofun⟩
  | @refused line hresult hline hcomplaint hnone =>
    rw [Request.run_of_error hresult] at hstatus ⊢
    cases hstatus
    refine ⟨.inr rfl, ⟨nofun, fun ⟨tree, hscopes, _⟩ => absurd hscopes (hnone tree)⟩, fun _ => ?_⟩
    exact ⟨⟨rfl, trivial, rfl⟩, line, hline, hcomplaint⟩
  | crash hresult =>
    rw [Request.run_of_error hresult] at hstatus
    cases hstatus

/-- A directory with one page in it. -/
def pageFiles : FileTree := FileTree.putBelow ⟨[]⟩ ["work", "page.js"] (.file "a".toUTF8)

/-- Write the scopes of the page. -/
def pageRequest : Request where
  verbose := false
  strict := true
  asModule := false
  generated := false
  input := "page.js"
  command := .scopes none

/-- List the scopes around a place in the page. -/
def placeRequest : Request :=
  { pageRequest with strict := false, command := .find (.int 1) (.int 0) }

/-- List the scopes around the start of a page that is not there. -/
def missingPageRequest : Request where
  verbose := false
  strict := false
  asModule := true
  generated := false
  input := "other.js"
  command := .find (.int 1) (.int 0)

/-- A call in the directory of the page. -/
def onPage (console : Console) (arguments : List String) : Outcome :=
  run Sample.nameParser pageFiles ["work"] arguments console

/-- The scopes of the page, on a console that takes every line, and the scopes around a place in it
and a page that is not there, on one that takes characters alone. -/
theorem status_eq_zero_iff_fulfils_pageFiles :
    ((onPage .willing ["scopes", "page.js", "--strict"]).ending = .status 0 ∧
      (onPage .willing ["scopes", "page.js", "--strict"]).output.length = 1 ∧
      ∃ tree, pageRequest.HasScopes Sample.nameParser pageFiles ["work"] tree ∧
        (onPage .willing ["scopes", "page.js", "--strict"]).delivery.Fulfils (.scopes none) .willing
          pageFiles ["work"] tree) ∧
    ((onPage .ofCharacters ["find", "page.js", "--line", "1"]).ending = .status 0 ∧
      (onPage .ofCharacters ["find", "page.js", "--line", "1"]).output = ["block Lexical Global: ",
        "object Global: module (implicit), exports (implicit), __dirname (implicit), " ++
          "__filename (implicit), require (implicit), this (implicit)"] ∧
      ∃ tree, placeRequest.HasScopes Sample.nameParser pageFiles ["work"] tree ∧
        (onPage .ofCharacters ["find", "page.js", "--line", "1"]).delivery.Fulfils
          (.find (.int 1) (.int 0)) .ofCharacters pageFiles ["work"] tree) ∧
    (onPage .ofCharacters ["find", "--module", "other.js", "--line", "1"]).ending = .status 1 ∧
      (onPage .ofCharacters ["find", "--module", "other.js", "--line", "1"]).messages =
        ["ERROR: Input file not found: /work/other.js"] ∧
      (onPage .ofCharacters ["find", "--module", "other.js", "--line", "1"]).delivery.Prints
        .ofCharacters pageFiles [] := by
  have hpage : Request.ofArguments ["scopes", "page.js", "--strict"] = .ok pageRequest :=
    eq_ok_of_toOption (by decide +kernel)
  have hplace : Request.ofArguments ["find", "page.js", "--line", "1"] = .ok placeRequest :=
    eq_ok_of_toOption (by decide +kernel)
  have hmissing : Request.ofArguments ["find", "--module", "other.js", "--line", "1"] =
      .ok missingPageRequest := eq_ok_of_toOption (by decide +kernel)
  have hscopes : (onPage .willing ["scopes", "page.js", "--strict"]).ending = .status 0 := by
    decide +kernel
  have hfind : (onPage .ofCharacters ["find", "page.js", "--line", "1"]).ending = .status 0 := by
    decide +kernel
  have hnone : (onPage .ofCharacters ["find", "--module", "other.js", "--line", "1"]).ending =
      .status 1 := by
    decide +kernel
  exact ⟨⟨hscopes, by decide +kernel,
      (status_eq_zero_iff_fulfils hpage _ _ _ _ hscopes).2.1.1 rfl⟩,
    ⟨hfind, by decide +kernel, (status_eq_zero_iff_fulfils hplace _ _ _ _ hfind).2.1.1 rfl⟩,
    hnone, by decide +kernel, ((status_eq_zero_iff_fulfils hmissing _ _ _ _ hnone).2.2 rfl).1⟩

end LexicalScopes.Cli
