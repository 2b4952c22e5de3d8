import GraphQLSyntax.Command.Format
import GraphQLSyntax.Proofs.Comparison.Options
import GraphQLSyntax.Proofs.Log.Records

/-!
# The two commands on one file

Checking succeeds if everything that was collected can be read and is parsed, and formatting if
the one file can be.  A file that is the only path given is collected whatever its extension, and
parse options do not decide what is parsed; so on one file the commands differ in the grammar at
most.  Checking goes by the flag alone, and formatting by the extension too.
-/

namespace GraphQLSyntax

variable {view : FileView} {path : String} {contents : Except ReadFault ByteArray}

/-- The command is successful. -/
def Command.Succeeds (view : FileView) (command : Command) : Prop :=
  (command.run view).result.1.success = true

/-- The entry is a text that the grammar accepts. -/
def Entry.Holds (entry : Entry) (path : String) (grammar : Grammar) : Prop :=
  ∃ body node, entry.read = .ok body ∧ (Source.mk body path).parseNode grammar {} = .ok node

theorem Source.exists_parseNode_iff (source : Source) (grammar : Grammar)
    (options options' : ParseOptions) :
    (∃ node, source.parseNode grammar options = .ok node) ↔
      ∃ node, source.parseNode grammar options' = .ok node := by
  rw [source.parseNode_eq grammar options, source.parseNode_eq grammar options']
  cases source.parseNode grammar {} with
  | ok whole => simp [Except.map]
  | error error => simp [Except.map]

theorem Entry.not_holds_of_read {entry : Entry} {fault : ReadFault} (h : entry.read = .error fault)
    (grammar : Grammar) : ¬ entry.Holds path grammar := by
  rintro ⟨body, -, hbody, -⟩
  rw [h] at hbody
  cases hbody

/-- By which options a text is parsed does not matter. -/
theorem Entry.holds_iff_of_read {entry : Entry} {body : String} (h : entry.read = .ok body)
    (grammar : Grammar) (options : ParseOptions) :
    entry.Holds path grammar ↔
      ∃ node, (Source.mk body path).parseNode grammar options = .ok node := by
  rw [Source.exists_parseNode_iff _ _ options {}]
  simp [Holds, h]

/-! ## Checking what is collected -/

/-- What comes of checking a file. -/
def Grammar.outcome (grammar : Grammar) (file : String × Entry) :
    Except InputFault (Option SyntaxError) :=
  match file.2.read with
  | .error fault => .error (.unread file.1 fault)
  | .ok body =>
    match (Source.mk body file.1).parseNode grammar { noLocation := true } with
    | .ok _ => .ok none
    | .error error => .ok (some error)

theorem Grammar.returns_checkFile (grammar : Grammar) (file : String × Entry) :
    (grammar.checkFile file).Returns (grammar.outcome file) := by
  unfold checkFile outcome
  cases file.2.read with
  | error fault => exact Logged.returns_pure _
  | ok body =>
    refine (Source.returns_parseLogged _ _ _).bind ?_
    dsimp only
    cases (Source.mk body file.1).parseNode grammar { noLocation := true } with
    | ok node => exact Logged.returns_pure (Except.ok none)
    | error error => exact Logged.returns_pure (Except.ok (some error))

theorem Grammar.outcome_eq_ok_none_iff {grammar : Grammar} {file : String × Entry} :
    grammar.outcome file = .ok none ↔ file.2.Holds file.1 grammar := by
  unfold outcome
  cases hread : file.2.read with
  | error fault => simp [Entry.not_holds_of_read hread]
  | ok body =>
    rw [Entry.holds_iff_of_read hread _ { noLocation := true }]
    dsimp only
    cases (Source.mk body file.1).parseNode grammar { noLocation := true } with
    | ok node => simp
    | error error => simp

/-- What is reported of a collection. -/
def Collection.report (collection : Collection) (grammar : Grammar) : CheckReport :=
  let outcomes := collection.files.map grammar.outcome
  { checked := collection.files.length
    skipped := collection.skipped
    faults := collection.faults ++ outcomes.filterMap fun
      | .error fault => some fault
      | .ok _ => none
    errors := outcomes.filterMap fun outcome => outcome.toOption.join }

theorem Collection.isClean_report {collection : Collection} {grammar : Grammar} :
    (collection.report grammar).isClean = true ↔
      collection.faults = [] ∧ ∀ file ∈ collection.files, file.2.Holds file.1 grammar := by
  simp only [CheckReport.isClean, report, Bool.and_eq_true, List.isEmpty_iff,
    List.append_eq_nil_iff, List.filterMap_eq_nil_iff, List.forall_mem_map,
    ← Grammar.outcome_eq_ok_none_iff, and_assoc]
  refine and_congr_right fun _ => ?_
  rw [← forall₂_and]
  refine forall₂_congr fun file _ => ?_
  cases grammar.outcome file with
  | error fault => simp
  | ok found => cases found <;> simp [Except.toOption]

theorem CheckArguments.returns_report {arguments : CheckArguments} {collection : Collection}
    (h : (Collection.collect view arguments.paths arguments.extensions).Returns collection) :
    (arguments.report view).Returns (collection.report (.ofFlag arguments.schema)) := by
  refine h.bind ((Logged.returns_mapM (Grammar.returns_checkFile _) _).bind ?_)
  exact .afterRecord (Logged.returns_pure (collection.report (.ofFlag arguments.schema))) _ _

theorem CheckReport.success_result (report : CheckReport) (json : Bool) :
    (report.result json).success = report.isClean := by
  unfold CheckReport.result CheckReport.isClean
  cases report.faults <;> cases report.errors <;> cases json <;> rfl

/-- Checking succeeds exactly if everything has been found and holds a document. -/
theorem CheckArguments.succeeds_iff {arguments : CheckArguments} {collection : Collection}
    (h : (Collection.collect view arguments.paths arguments.extensions).Returns collection) :
    (Command.check arguments).Succeeds view ↔
      collection.faults = [] ∧
        ∀ file ∈ collection.files, file.2.Holds file.1 (.ofFlag arguments.schema) := by
  have hrun : (arguments.run view).Returns
      ((collection.report (.ofFlag arguments.schema)).result arguments.json) :=
    (returns_report h).bind (Logged.returns_pure _)
  rw [← Collection.isClean_report, ← CheckReport.success_result _ arguments.json,
    ← hrun.result_eq]
  rfl

/-! ## Collecting one file -/

namespace Collection

theorem returns_visit_file (extensions : List String) (root : String) (collection : Collection) :
    (visit extensions root collection (path, .file contents)).Returns
      (if (Path.extension? path).any extensions.contains then
        { collection with files := collection.files ++ [(path, .file contents)] }
      else { collection with skipped := collection.skipped + 1 }) := by
  unfold visit
  dsimp only
  split
  · apply Logged.Returns.afterRecord
    exact Logged.returns_pure _
  · exact Logged.returns_pure _

theorem returns_proceedWithFile_of_ne_nil {collection : Collection}
    (hfiles : collection.files ≠ []) (extensions roots : List String) :
    (proceedWithFile view extensions roots collection).Returns collection := by
  unfold proceedWithFile
  split
  · contradiction
  · exact Logged.returns_pure _

theorem returns_proceedWithFile_of_eq_nil {collection : Collection}
    (hfile : view path = .file contents) (hfiles : collection.files = [])
    (extensions : List String) :
    (proceedWithFile view extensions [path] collection).Returns
      { collection with
        files := [(path, .file contents)]
        skipped := collection.skipped - 1 } := by
  unfold proceedWithFile
  rw [hfiles]
  dsimp only
  rw [hfile, if_pos (by rfl)]
  apply Logged.Returns.afterRecord
  exact Logged.returns_pure _

theorem sorted_file (skipped : Nat) (faults : List InputFault) (file : String × Entry) :
    sorted { files := [file], skipped, faults } = { files := [file], skipped, faults } := by
  simp [sorted]

/-- A file that is the only path given is collected whatever its extension. -/
theorem returns_collect_file (hfile : view path = .file contents) (extensions : List String) :
    (collect view [path] extensions).Returns { files := [(path, .file contents)] } := by
  have hvisits : [path].flatMap (fun root => ((view root).walk root).map (root, ·)) =
      [(path, path, .file contents)] := by
    simp [hfile, Entry.walk]
  have hvisit := @returns_visit_file path contents (normalExtensions extensions) path {}
  apply Logged.Returns.afterRecord
  rw [hvisits]
  dsimp only
  rw [List.foldlM_cons]
  refine (hvisit.bind (Logged.returns_pure _)).bind ?_
  -- The file is collected on the way if its extension is asked for, and afterwards otherwise.
  split
  · refine (returns_proceedWithFile_of_ne_nil (by simp) _ _).bind ?_
    apply Logged.Returns.afterRecord
    rw [List.nil_append, sorted_file]
    exact Logged.returns_pure _
  · refine (returns_proceedWithFile_of_eq_nil hfile rfl _).bind ?_
    apply Logged.Returns.afterRecord
    rw [sorted_file]
    exact Logged.returns_pure _

end Collection

/-- On one file, checking goes by the flag alone. -/
theorem CheckArguments.succeeds_file_iff (hfile : view path = .file contents)
    (extensions : List String) (schema json : Bool) :
    (Command.check { extensions, schema, json, paths := [path] }).Succeeds view ↔
      (Entry.file contents).Holds path (.ofFlag schema) := by
  have hcollect := Collection.returns_collect_file hfile extensions
  have hiff := @succeeds_iff view { extensions, schema, json, paths := [path] } _ hcollect
  rw [hiff]
  simp

/-! ## Formatting a file -/

/-- What comes of formatting. -/
def FormatArguments.outcome (arguments : FormatArguments) (view : FileView) :
    Except FormatFault String :=
  let path := arguments.path
  match (view path).read with
  | .error fault => .error (.input (.unread path fault))
  | .ok body =>
    let grammar := Grammar.ofFlag (arguments.schema || Path.namesSchema path)
    match (Source.mk body path).parseNode grammar { noSource := true } with
    | .ok node => .ok node.print
    | .error error => .error (.syntactic error)

theorem FormatArguments.returns_printed (arguments : FormatArguments) :
    (arguments.printed view).Returns (arguments.outcome view) := by
  unfold printed outcome
  dsimp only
  cases (view arguments.path).read with
  | error fault => exact Logged.returns_pure _
  | ok body =>
    generalize (arguments.schema || Path.namesSchema arguments.path) = schema
    have hparse := (Source.mk body arguments.path).returns_parseLogged (.ofFlag schema)
      { noSource := true }
    have hprint : ∀ parsed : Except SyntaxError (Node Tag),
        Logged.Returns
          (match parsed with
            | .ok node => pure (Except.ok node.print)
            | .error error => pure (Except.error (FormatFault.syntactic error)))
          (match parsed with
            | .ok node => Except.ok node.print
            | .error error => Except.error (FormatFault.syntactic error)) := by
      intro parsed
      cases parsed with
      | ok node => exact Logged.returns_pure (Except.ok node.print)
      | error error => exact Logged.returns_pure (Except.error (FormatFault.syntactic error))
    dsimp only
    split
    · apply Logged.Returns.afterRecord
      exact hparse.bind (hprint _)
    · exact hparse.bind (hprint _)

theorem FormatArguments.exists_outcome_iff (arguments : FormatArguments) :
    (∃ text, arguments.outcome view = .ok text) ↔
      (view arguments.path).Holds arguments.path
        (.ofFlag (arguments.schema || Path.namesSchema arguments.path)) := by
  unfold outcome
  dsimp only
  cases hread : (view arguments.path).read with
  | error fault => simp [Entry.not_holds_of_read hread]
  | ok body =>
    generalize Grammar.ofFlag _ = grammar
    rw [Entry.holds_iff_of_read hread _ { noSource := true }]
    dsimp only
    cases (Source.mk body arguments.path).parseNode grammar { noSource := true } with
    | ok node => simp
    | error error => simp

/-- The result of formatting. -/
def FormatArguments.result (arguments : FormatArguments) (view : FileView) : CommandResult :=
  match arguments.outcome view with
  | .ok text => .succeeded (trimEnd text)
  | .error fault => .failed (CommandResult.crossMark ++ " " ++ fault.description)

theorem FormatArguments.returns_run (arguments : FormatArguments) :
    (arguments.run view).Returns (arguments.result view) := by
  refine arguments.returns_printed.bind ?_
  unfold result
  cases arguments.outcome view with
  | ok text => exact Logged.returns_pure _
  | error fault => exact Logged.returns_pure _

/-- Formatting goes by the flag and the extension. -/
theorem FormatArguments.succeeds_iff (arguments : FormatArguments) :
    (Command.format arguments).Succeeds view ↔
      (view arguments.path).Holds arguments.path
        (.ofFlag (arguments.schema || Path.namesSchema arguments.path)) := by
  have hresult : ((Command.format arguments).run view).result.1 = arguments.result view :=
    arguments.returns_run.result_eq
  rw [← exists_outcome_iff, Command.Succeeds, hresult, result]
  cases arguments.outcome view with
  | ok text => simp [CommandResult.succeeded]
  | error fault => simp [CommandResult.failed]

/-! ## Both commands on one file -/

/-- A file that lies in the directory itself is found by its name. -/
theorem FileTree.view_add_nil {name : String} (hparts : Path.parts name = [.name name])
    (hnul : '\x00' ∉ name.toList) (hsize : name.utf8ByteSize < 4096)
    (hdirectory : wantsDirectory name = false) (bytes : ByteArray) :
    (FileTree.add [] name bytes).view name = .file (.ok bytes) := by
  have hne : name ≠ "" := by
    rintro rfl
    exact absurd hparts (by decide)
  simp [view, add, hparts, hnul, Nat.not_le.2 hsize, hne, hdirectory, Entry.insert, Entry.follow]

/-- On one file, checking and formatting succeed together if the flag is set, and also without it
unless the extension is `graphqls`.  Such a file is then checked as an executable document and
formatted as a schema. -/
theorem Command.agree_on_file (hfile : view path = .file contents) (extensions : List String)
    (schema json : Bool) :
    (schema = true ∨ Path.extension? path ≠ some "graphqls" →
        ((check { extensions, schema, json, paths := [path] }).Succeeds view ↔
          (format { schema, path }).Succeeds view)) ∧
      (Path.extension? path = some "graphqls" →
        ((check { extensions, schema := false, json, paths := [path] }).Succeeds view ↔
            (Entry.file contents).Holds path .executable) ∧
          ((format { schema := false, path }).Succeeds view ↔
            (Entry.file contents).Holds path .schema)) := by
  rw [FormatArguments.succeeds_iff, FormatArguments.succeeds_iff,
    CheckArguments.succeeds_file_iff hfile, CheckArguments.succeeds_file_iff hfile, hfile]
  constructor
  · intro h
    have hgrammar : (schema || Path.namesSchema path) = schema := by
      obtain rfl | hextension := h
      · rfl
      · simp [Path.namesSchema, hextension]
    rw [hgrammar]
  · intro hextension
    have hgrammar : (false || Path.namesSchema path) = true := by
      simp [Path.namesSchema, hextension]
    rw [hgrammar]
    exact ⟨Iff.rfl, Iff.rfl⟩

/-- A text that has been encoded is read as it was. -/
theorem Entry.read_toUTF8 (text : String) : (Entry.file (.ok text.toUTF8)).read = .ok text := by
  simp only [read, String.fromUTF8?, Bind.bind, Except.bind]
  rw [dif_pos (show text.toUTF8.IsValidUTF8 from text.isValidUTF8)]
  rfl

theorem Entry.holds_toUTF8_iff {text : String} {grammar : Grammar} :
    (Entry.file (.ok text.toUTF8)).Holds path grammar ↔
      ((Source.mk text path).parseNode grammar {}).toBool = true := by
  rw [holds_iff_of_read (read_toUTF8 text) _ {}]
  cases (Source.mk text path).parseNode grammar {} with
  | ok node => simp [Except.toBool]
  | error error => simp [Except.toBool]

/-- A query in a file with an extension that is not asked for. -/
theorem Command.agree_on_file_query :
    let contents : Except ReadFault ByteArray := .ok "\x7ba\x7d".toUTF8
    let view := FileTree.view (FileTree.add [] "a.txt" "\x7ba\x7d".toUTF8)
    view "a.txt" = .file contents ∧ Path.extension? "a.txt" ≠ some "graphqls" ∧
      (check { paths := ["a.txt"] }).Succeeds view ∧
      (format { path := "a.txt" }).Succeeds view := by
  intro contents view
  have hfile : view "a.txt" = .file contents :=
    FileTree.view_add_nil (by decide) (by decide) (by decide) (by decide) _
  have hextension : Path.extension? "a.txt" ≠ some "graphqls" := by decide
  have hholds : (Entry.file contents).Holds "a.txt" .executable :=
    Entry.holds_toUTF8_iff.2 (by decide +kernel)
  have hcheck : (check { paths := ["a.txt"] }).Succeeds view :=
    (CheckArguments.succeeds_file_iff hfile _ false false).2 hholds
  exact ⟨hfile, hextension, hcheck,
    ((agree_on_file hfile _ false false).1 (.inr hextension)).1 hcheck⟩

/-- A schema in a file of the extension `graphqls` is formatted, but checking refuses it as long
as it is not told that there is a schema. -/
theorem Command.not_agree_on_file :
    ¬ ∀ (view : FileView) (path : String) (contents : Except ReadFault ByteArray)
        (schema : Bool), view path = .file contents →
      ((check { schema, paths := [path] }).Succeeds view ↔
        (format { schema, path }).Succeeds view) := by
  intro h
  have hfile := FileTree.view_add_nil (show Path.parts "a.graphqls" = _ by decide) (by decide)
    (by decide) (by decide) "scalar A\n".toUTF8
  have hformat : (Entry.file (.ok "scalar A\n".toUTF8)).Holds "a.graphqls" .schema :=
    Entry.holds_toUTF8_iff.2 (by decide +kernel)
  have hcheck : ¬ (Entry.file (.ok "scalar A\n".toUTF8)).Holds "a.graphqls" .executable := by
    have hrefused : ((Source.mk "scalar A\n" "a.graphqls").parseNode .executable {}).toBool =
        false := by
      decide +kernel
    rw [Entry.holds_toUTF8_iff, hrefused]
    exact Bool.false_ne_true
  have hiff := h _ "a.graphqls" _ false hfile
  rw [FormatArguments.succeeds_iff, CheckArguments.succeeds_file_iff hfile, hfile] at hiff
  exact hcheck (hiff.2 hformat)

end GraphQLSyntax
