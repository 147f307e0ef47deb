import DeclBridge.Proofs.Disk.Expansion
import DeclBridge.Proofs.Streaming

/-!
Batches of files. A batch writes what its files give one by one, in their order, and reports each
file that cannot be read, in its place.
-/

namespace DeclBridge

namespace Ruleset

variable (r : Ruleset) (d : Disk)

/-- The output for a file and the diagnostics, if it can be read. -/
def outputOfFile (path : String) : Except Error (String × List Diagnostic) :=
  match d.readText path with
  | .ok source => r.outputOfSource source
  | .error fault => .error (.disk path fault)

def itemsOfFile (path : String) : Except Error (List String × List Diagnostic) :=
  match d.readText path with
  | .ok source => r.itemsOfSource source
  | .error fault => .error (.disk path fault)

def diagnosticsOfFile (path : String) : List Diagnostic :=
  match r.outputOfFile d path with
  | .ok (_, diagnostics) => diagnostics
  | .error e => [⟨.file, path, e⟩]

/-- The text that files give together, without those that cannot be read. -/
def textOfFiles (files : List String) : String :=
  String.join (files.filterMap fun path => Prod.fst <$> (r.outputOfFile d path).toOption)

/-- The items that files give together, without those that cannot be read. -/
def itemsOfFiles (files : List String) : List String :=
  (files.filterMap fun path => Prod.fst <$> (r.itemsOfFile d path).toOption).flatten

/-- What is counted of files. -/
def summaryOfFiles (files : List String) : Summary where
  files := files.countP fun path => (r.outputOfFile d path).toOption.isSome
  skipped := files.countP fun path => ¬ (r.outputOfFile d path).toOption.isSome
  declarations := (r.itemsOfFiles d files).length

theorem textOfFiles_append (files others : List String) :
    r.textOfFiles d (files ++ others) = r.textOfFiles d files ++ r.textOfFiles d others := by
  rw [textOfFiles, List.filterMap_append, String.join_append]
  rfl

theorem itemsOfFiles_append (files others : List String) :
    r.itemsOfFiles d (files ++ others) = r.itemsOfFiles d files ++ r.itemsOfFiles d others := by
  rw [itemsOfFiles, List.filterMap_append, List.flatten_append]
  rfl

theorem summaryOfFiles_append (files others : List String) :
    r.summaryOfFiles d (files ++ others) =
      ⟨(r.summaryOfFiles d files).files + (r.summaryOfFiles d others).files,
        (r.summaryOfFiles d files).skipped + (r.summaryOfFiles d others).skipped,
        (r.summaryOfFiles d files).declarations + (r.summaryOfFiles d others).declarations⟩ := by
  simp only [summaryOfFiles, List.countP_append, itemsOfFiles_append, List.length_append]

theorem outputOfFile_eq (path : String) :
    r.outputOfFile d path = (fun nodes => (unlines (r.items nodes).1, (r.items nodes).2)) <$>
      d.readNodes path := by
  rw [outputOfFile, Disk.readNodes]
  cases d.readText path with
  | error fault => rfl
  | ok source => exact r.outputOfSource_eq source

theorem itemsOfFile_eq (path : String) : r.itemsOfFile d path = r.items <$> d.readNodes path := by
  rw [itemsOfFile, Disk.readNodes]
  cases d.readText path <;> rfl

theorem textOfFiles_eq (files : List String) :
    r.textOfFiles d files = unlines (r.itemsOfFiles d files) := by
  have hfile (path : String) : r.textOfFiles d [path] = unlines (r.itemsOfFiles d [path]) := by
    simp only [textOfFiles, itemsOfFiles, List.filterMap_cons, outputOfFile_eq, itemsOfFile_eq]
    cases d.readNodes path with
    | error e => rfl
    | ok nodes => simp [Except.toOption]
  induction files with
  | nil => rfl
  | cons path files ih =>
      rw [← List.singleton_append, textOfFiles_append, itemsOfFiles_append, unlines_append, hfile,
        ih]

variable {r d} {path : String}

theorem ofFile_of_error {e : Error} (h : d.readNodes path = .error e) :
    r.textOfFiles d [path] = "" ∧ r.diagnosticsOfFile d path = [⟨.file, path, e⟩] ∧
      r.summaryOfFiles d [path] = ⟨0, 1, 0⟩ := by
  have houtput : r.outputOfFile d path = .error e := by rw [outputOfFile_eq, h]; rfl
  have hitems : r.itemsOfFile d path = .error e := by rw [itemsOfFile_eq, h]; rfl
  simp [textOfFiles, diagnosticsOfFile, summaryOfFiles, itemsOfFiles, houtput, hitems,
    Except.toOption]

theorem ofFile_of_ok {nodes : List Node} (h : d.readNodes path = .ok nodes) :
    r.textOfFiles d [path] = unlines (r.items nodes).1 ∧
      r.diagnosticsOfFile d path = (r.items nodes).2 ∧
      r.summaryOfFiles d [path] = ⟨1, 0, (r.items nodes).1.length⟩ := by
  have houtput : r.outputOfFile d path = .ok (unlines (r.items nodes).1, (r.items nodes).2) := by
    rw [outputOfFile_eq, h]
    rfl
  have hitems : r.itemsOfFile d path = .ok (r.items nodes) := by rw [itemsOfFile_eq, h]; rfl
  simp [textOfFiles, diagnosticsOfFile, summaryOfFiles, itemsOfFiles, houtput, hitems,
    Except.toOption]

end Ruleset

namespace Session

variable {r : Ruleset} {d : Disk} {limit : Option Nat} {before : List String}

/-- The session behind files that were rendered with room for all. -/
def behindFiles (r : Ruleset) (d : Disk) (limit : Option Nat) (files : List String) : Session :=
  ⟨d, .memory limit (r.textOfFiles d files).toUTF8, files.flatMap (r.diagnosticsOfFile d)⟩

theorem hasRoom_before {files others : List String}
    (h : HasRoom limit (r.textOfFiles d (files ++ others)).toUTF8.size) :
    HasRoom limit (r.textOfFiles d files).toUTF8.size := by
  refine h.mono ?_
  rw [Ruleset.textOfFiles_append, toUTF8_append, ByteArray.size_append]
  exact Nat.le_add_right _ _

theorem takeFile_behindFiles (path : String)
    (hroom : HasRoom limit (r.textOfFiles d (before ++ [path])).toUTF8.size) :
    ∃ count, (behindFiles r d limit before).takeFile r path =
        (.ok count, behindFiles r d limit (before ++ [path])) ∧
      r.summaryOfFiles d [path] =
        match count with
        | some count => ⟨1, 0, count⟩
        | none => ⟨0, 1, 0⟩ := by
  cases hnodes : d.readNodes path with
  | error e =>
      obtain ⟨htext, hdiagnostics, hsummary⟩ := Ruleset.ofFile_of_error (r := r) hnodes
      refine ⟨none, ?_, hsummary⟩
      simp [takeFile, behindFiles, report, hnodes, Ruleset.textOfFiles_append, htext, hdiagnostics]
  | ok nodes =>
      obtain ⟨htext, hdiagnostics, hsummary⟩ := Ruleset.ofFile_of_ok (r := r) hnodes
      refine ⟨some (r.items nodes).1.length, ?_, hsummary⟩
      have hall : (r.textOfFiles d (before ++ [path])).toUTF8 =
          (r.textOfFiles d before).toUTF8 ++ (unlines (r.items nodes).1).toUTF8 := by
        rw [Ruleset.textOfFiles_append, htext, toUTF8_append]
      have hbefore := (limited_of_hasRoom (hasRoom_before hroom)).symm
      have hlimited := limited_of_hasRoom hroom
      rw [hall] at hroom hlimited
      have htaken := takeNodes_memory (s := behindFiles r d limit before)
        (congrArg (Output.memory limit) hbefore) r nodes
      rw [← ByteArray.size_append, if_pos (.inr hroom), hlimited] at htaken
      simp only [takeFile, behindFiles, hnodes] at htaken ⊢
      rw [htaken, hall]
      simp [Except.map, hdiagnostics]

theorem takeFiles_behindFiles (files : List String)
    (hroom : HasRoom limit (r.textOfFiles d (before ++ files)).toUTF8.size) :
    (behindFiles r d limit before).takeFiles r (r.summaryOfFiles d before) files =
      (.ok (r.summaryOfFiles d (before ++ files)), behindFiles r d limit (before ++ files)) := by
  induction files generalizing before with
  | nil => simp [takeFiles]
  | cons path files ih =>
      have hfile : before ++ path :: files = before ++ [path] ++ files := by simp
      rw [hfile] at hroom ⊢
      obtain ⟨count, hstep, hcount⟩ := takeFile_behindFiles path (hasRoom_before hroom)
      have hsum := r.summaryOfFiles_append d before [path]
      rw [hcount] at hsum
      rw [← ih hroom, takeFiles, hstep, hsum]
      cases count <;> rfl

theorem takePathsFrom_behindFiles (before paths : List String)
    (hroom : HasRoom limit (r.textOfFiles d (before ++ paths.flatMap d.expand)).toUTF8.size) :
    (behindFiles r d limit before).takePathsFrom r (r.summaryOfFiles d before) paths =
      (.ok (r.summaryOfFiles d (before ++ paths.flatMap d.expand)),
        behindFiles r d limit (before ++ paths.flatMap d.expand)) := by
  induction paths generalizing before with
  | nil => simp [takePathsFrom]
  | cons path paths ih =>
      rw [List.flatMap_cons, ← List.append_assoc] at hroom ⊢
      have hdisk : (behindFiles r d limit before).disk = d := rfl
      rw [← ih _ hroom, takePathsFrom, hdisk,
        takeFiles_behindFiles (d.expand path) (hasRoom_before hroom)]

/-- A batch with room on its output renders all files that its paths stand for. It writes the
outputs of those that can be read, one behind the other, and reports of every file in its place
its own diagnostics or the one that names it. -/
theorem takePaths_concatenated (r : Ruleset) (d : Disk) (limit : Option Nat) (paths : List String)
    (hd : d.IsTree) (hreadable : ∀ path ∈ paths, d.ListsReadably path)
    (hroom : HasRoom limit (r.textOfFiles d (paths.flatMap d.expand)).toUTF8.size) :
    (∀ path ∈ paths, d.Expands path (d.expand path)) ∧
    ∃ sum, (⟨d, .empty limit, []⟩ : Session).takePaths r paths =
        (.ok sum, ⟨d, .memory limit (r.textOfFiles d (paths.flatMap d.expand)).toUTF8,
          (paths.flatMap d.expand).flatMap (r.diagnosticsOfFile d)⟩) ∧
      sum.files + sum.skipped = (paths.flatMap d.expand).length ∧
      sum.declarations = (r.itemsOfFiles d (paths.flatMap d.expand)).length ∧
      r.textOfFiles d (paths.flatMap d.expand) =
        unlines (r.itemsOfFiles d (paths.flatMap d.expand)) := by
  refine ⟨fun path hpath => hd.expands (hreadable path hpath), _,
    takePathsFrom_behindFiles [] paths hroom, ?_, rfl, ?_⟩
  · exact (List.length_eq_countP_add_countP _).symm
  · exact r.textOfFiles_eq d _

/-- A folder with two Go files, and a file beside them. -/
def twoFiles : Disk :=
  ⟨[(["b.go"], .file "type B int\n".toUTF8), (["a.go"], .file "// A\ntype A string\n".toUTF8),
    (["notes"], .file .empty)], []⟩

/-- The files of a folder in their order, and a path that leads nowhere. -/
theorem takePaths_concatenated_twoFiles :
    twoFiles.IsTree ∧ (∀ path ∈ [".", "c.go"], twoFiles.ListsReadably path) ∧
    [".", "c.go"].flatMap twoFiles.expand = ["./a.go", "./b.go", "c.go"] ∧
    ∃ sum,
      (⟨twoFiles, .empty (some 60), []⟩ : Session).takePaths (.ofPreset .current) [".", "c.go"] =
        (.ok sum, ⟨twoFiles, .memory (some 60)
          "/// A\npub type A = String;\n\npub type B = i32;\n\n".toUTF8,
          [⟨.file, "c.go", .disk "c.go" .missing⟩]⟩) ∧
      sum.files + sum.skipped = 3 ∧ sum.declarations = 2 := by
  have htree : twoFiles.IsTree := ⟨by decide +kernel, by decide +kernel⟩
  have hreadable : ∀ path ∈ [".", "c.go"], twoFiles.ListsReadably path := by
    intro path hpath
    refine htree.listsReadably_of_size ?_
    revert path
    decide +kernel
  have hnames : twoFiles.sourceNames [] = ["a.go", "b.go"] := by
    have hfound : twoFiles.entries.filterMap (Disk.sourceName? []) = ["b.go", "a.go"] := by
      decide +kernel
    rw [Disk.sourceNames, hfound]
    cbv
  have hfolder : twoFiles.expand "." = ["./a.go", "./b.go"] := by
    rw [htree.expand_of_folder (l := []) (hreadable "." (by simp)) (by rfl) rfl, hnames]
    decide +kernel
  have hexpand : [".", "c.go"].flatMap twoFiles.expand = ["./a.go", "./b.go", "c.go"] := by
    rw [List.flatMap_cons, hfolder, List.flatMap_singleton, Disk.expand_of_not_isFolder (by decide)]
    rfl
  have htext : (Ruleset.ofPreset .current).textOfFiles twoFiles ["./a.go", "./b.go", "c.go"] =
      "/// A\npub type A = String;\n\npub type B = i32;\n\n" := by
    decide +kernel
  have hdiagnostics : ["./a.go", "./b.go", "c.go"].flatMap
      ((Ruleset.ofPreset .current).diagnosticsOfFile twoFiles) =
        [⟨.file, "c.go", .disk "c.go" .missing⟩] := by
    decide +kernel
  have hroom : HasRoom (some 60) ((Ruleset.ofPreset .current).textOfFiles twoFiles
      ([".", "c.go"].flatMap twoFiles.expand)).toUTF8.size := by
    rw [hexpand, htext]
    decide +kernel
  obtain ⟨-, sum, htaken, hcount, hdeclarations, -⟩ :=
    takePaths_concatenated (.ofPreset .current) twoFiles (some 60) [".", "c.go"] htree hreadable
      hroom
  refine ⟨htree, hreadable, hexpand, sum, ?_, ?_, ?_⟩
  · rw [htaken, hexpand, htext, hdiagnostics]
  · rw [hcount, hexpand]
    rfl
  · rw [hdeclarations, hexpand]
    decide +kernel

end Session

end DeclBridge
