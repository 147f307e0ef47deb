import DeclBridge.CommandLine.Run
import DeclBridge.Proofs.Batch
import DeclBridge.Proofs.Disk.Putting
import DeclBridge.Proofs.Render.Refusal

/-!
Runs whose output goes to a file. The file is created before anything is read, so what it held is
lost to the run, and while it is written it is no source text.
-/

namespace DeclBridge

namespace Disk

theorem append_put {d : Disk} {l : Location} (hl : l ≠ []) (content bytes : ByteArray) :
    (d.put l (.file content)).append l bytes = d.put l (.file (content ++ bytes)) := by
  rw [append, get?_put_self hl]
  exact put_put

end Disk

/-! ### What a disk gives with a file on it -/

namespace Ruleset

variable {r : Ruleset} {d d' : Disk} {l : Location} {content : ByteArray} {path text : String}

theorem textOfFiles_congr (h : (d.readText path).toOption = (d'.readText path).toOption) :
    r.textOfFiles d [path] = r.textOfFiles d' [path] := by
  simp only [textOfFiles, List.filterMap_cons, outputOfFile]
  cases hd : d.readText path <;> cases hd' : d'.readText path <;>
    simp_all [Except.toOption]

theorem textOfFiles_of_resolve {fault : DiskFault} (h : d.resolve path = .error fault) :
    r.textOfFiles d [path] = "" := by
  have htext : d.readText path = .error fault := by
    rw [Disk.readText, h]
    rfl
  simp [textOfFiles, outputOfFile, htext, Except.toOption]

theorem textOfFiles_put (hl : d.get? l ≠ some .folder)
    (h : (d.put l (.file content)).leadsTo l path = false) :
    r.textOfFiles (d.put l (.file content)) [path] = r.textOfFiles d [path] := by
  rw [← Bool.not_eq_true, Disk.leadsTo_iff] at h
  cases hpath : (d.put l (.file content)).resolve path with
  | ok k =>
      have hk : k ≠ l := by
        rintro rfl
        exact h hpath
      have hpath' := (Disk.resolve_put_of_ne hl hk).mp hpath
      refine textOfFiles_congr (congrArg _ ?_)
      simp only [Disk.readText, hpath, hpath', bind, Except.bind, Disk.get?_put_of_ne hk]
  | error fault =>
      rw [textOfFiles_of_resolve hpath]
      cases hpath' : d.resolve path with
      | ok k => simp [Disk.resolve_put hl hpath'] at hpath
      | error fault => rw [textOfFiles_of_resolve hpath']

/-- Texts that hold no declaration because nothing is written yet, or because they are output. -/
def IsSilent (text : String) : Prop :=
  text = "" ∨ BeginsItem text

theorem textOfFiles_put_of_isSilent (hl : l ≠ []) (htext : IsSilent text)
    (h : (d.put l (.file text.toUTF8)).leadsTo l path = true) :
    r.textOfFiles (d.put l (.file text.toUTF8)) [path] = "" := by
  have hdecode : String.fromUTF8? text.toUTF8 = some text := by
    simp only [String.fromUTF8?, String.toUTF8_eq_toByteArray, dif_pos text.isValidUTF8]
    rfl
  have hnodes : (d.put l (.file text.toUTF8)).readNodes path = Node.ofSource text := by
    have hread : (d.put l (.file text.toUTF8)).readText path = .ok text := by
      simp only [Disk.readText, Disk.leadsTo_iff.mp h, bind, Except.bind, Disk.get?_put_self hl,
        hdecode]
      rfl
    rw [Disk.readNodes, hread]
  cases hsource : Node.ofSource text with
  | error e => exact (ofFile_of_error (hnodes.trans hsource)).1
  | ok nodes =>
      rcases htext with rfl | htext
      · have hempty : Node.ofSource "" = .ok [] := by decide +kernel
        rw [(ofFile_of_ok (hnodes.trans hempty)).1]
        rfl
      · exact absurd hsource (htext.ofSource_ne_ok nodes)

end Ruleset

/-- Bytes for a file are held back with those before them, or these are written first, or all are
written. -/
theorem Output.write_file {d : Disk} {l : Location} (hl : l ≠ []) (content held bytes : ByteArray) :
    ∃ content' held', (file l held).write (d.put l (.file content)) bytes =
        (.ok (), file l held', d.put l (.file content')) ∧
      (content' = content ∧ held' = held ++ bytes ∨ content' = content ++ held ∧ held' = bytes ∨
        content' = content ++ held ++ bytes ∧ held' = .empty) := by
  rw [write]
  by_cases hfull : blockSize < held.size + bytes.size
  · simp only [if_pos hfull, Disk.append_put hl]
    by_cases hlarge : blockSize ≤ bytes.size
    · exact ⟨_, _, if_pos hlarge, .inr (.inr ⟨rfl, rfl⟩)⟩
    · refine ⟨_, _, if_neg hlarge, .inr (.inl ⟨rfl, ByteArray.empty_append⟩)⟩
  · simp only [if_neg hfull, Disk.append_put hl]
    by_cases hlarge : blockSize ≤ bytes.size
    · -- A block fits together with what is held back only if that is nothing.
      have hheld : held = .empty := ByteArray.size_eq_zero_iff.mp (by omega)
      refine ⟨_, _, if_pos hlarge, .inr (.inr ⟨?_, hheld⟩)⟩
      rw [hheld, ByteArray.append_empty]
    · exact ⟨_, _, if_neg hlarge, .inl ⟨rfl, rfl⟩⟩

namespace Session

/-- What a session has written. Memory without a limit holds all texts; a file holds the first of
them, and the others are held back. -/
inductive Wrote (d : Disk) : Option Location → List String → Session → Prop where
  | memory {texts : List String} {diagnostics : List Diagnostic} :
      Wrote d none texts ⟨d, .memory none (String.join texts).toUTF8, diagnostics⟩
  | file {l : Location} {texts held : List String} {diagnostics : List Diagnostic} :
      Wrote d (some l) (texts ++ held)
        ⟨d.put l (.file (String.join texts).toUTF8), .file l (String.join held).toUTF8, diagnostics⟩

variable {r : Ruleset} {d : Disk} {out : Option Location} {texts : List String} {s : Session}

theorem toUTF8_join_append (texts others : List String) :
    (String.join (texts ++ others)).toUTF8 =
      (String.join texts).toUTF8 ++ (String.join others).toUTF8 := by
  rw [String.join_append, toUTF8_append]

theorem Wrote.report (h : Wrote d out texts s) (diagnostics : List Diagnostic) :
    Wrote d out texts { s with diagnostics } := by
  cases h with
  | memory => exact .memory
  | file => exact .file

theorem Wrote.write (hout : ∀ l ∈ out, l ≠ []) (h : Wrote d out texts s) (text : String) :
    ∃ s', s.write text = (.ok (), s') ∧ Wrote d out (texts ++ [text]) s' := by
  have htext : text.toUTF8 = (String.join [text]).toUTF8 := by simp
  cases h with
  | @memory _ diagnostics =>
      refine ⟨⟨d, .memory none (String.join (texts ++ [text])).toUTF8, diagnostics⟩, ?_, ?_⟩
      · rw [toUTF8_join_append, ← htext]
        simp [Session.write, Output.write, limited, Except.mapError]
      · exact .memory
  | @file l texts held diagnostics =>
      obtain ⟨content, held', hwrite, hcases⟩ := Output.write_file (d := d) (hout l rfl)
        (String.join texts).toUTF8 (String.join held).toUTF8 text.toUTF8
      refine ⟨⟨d.put l (.file content), .file l held', diagnostics⟩, ?_, ?_⟩
      · simp only [Session.write, hwrite, Except.mapError]
      rw [htext] at hcases
      rcases hcases with ⟨rfl, rfl⟩ | ⟨rfl, rfl⟩ | ⟨rfl, rfl⟩
      · rw [← toUTF8_join_append, List.append_assoc]
        exact .file
      · rw [← toUTF8_join_append]
        exact .file
      · rw [← toUTF8_join_append, ← toUTF8_join_append]
        have hall := @Wrote.file d l (texts ++ held ++ [text]) [] diagnostics
        rwa [List.append_nil] at hall

theorem Wrote.writeItems (hout : ∀ l ∈ out, l ≠ []) (h : Wrote d out texts s)
    (items : List String) :
    ∃ s', s.writeItems items = (.ok (), s') ∧
      Wrote d out (texts ++ items.flatMap fun item => [item, "\n"]) s' := by
  induction items generalizing texts s with
  | nil => exact ⟨s, rfl, by simpa using h⟩
  | cons item items ih =>
      obtain ⟨s₁, hitem, h₁⟩ := h.write hout item
      obtain ⟨s₂, hend, h₂⟩ := h₁.write hout "\n"
      obtain ⟨s', hitems, h'⟩ := ih h₂
      refine ⟨s', ?_, ?_⟩
      · rw [Session.writeItems, hitem]
        simp only [hend, hitems]
      · simpa using h'

/-- Whether texts begin with output, if there are any. -/
def AreOutput (texts : List String) : Prop :=
  ∀ text ∈ texts.head?, BeginsItem text

theorem AreOutput.isSilent_join {more : List String} (h : AreOutput (texts ++ more)) :
    Ruleset.IsSilent (String.join texts) := by
  cases texts with
  | nil => exact .inl rfl
  | cons text texts =>
      rw [String.join_cons]
      exact .inr ((h text rfl).append _)

/-- The disk that a run reads as if nothing were written: an output file is there and is empty. -/
def readDisk (d : Disk) : Option Location → Disk
  | none => d
  | some l => d.put l (.file .empty)

/-- What is written so far gives nothing when it is read, and hides nothing else. -/
theorem Wrote.textOfFiles (hout : ∀ l ∈ out, d.get? l ≠ some .folder) (h : Wrote d out texts s)
    (htexts : AreOutput texts) (path : String) :
    r.textOfFiles s.disk [path] = r.textOfFiles (readDisk d out) [path] := by
  cases h with
  | memory => rfl
  | @file l texts held =>
      have hl := hout l rfl
      have hempty : Ruleset.IsSilent "" := .inl rfl
      rw [readDisk]
      cases hleads : (d.put l (.file (String.join texts).toUTF8)).leadsTo l path with
      | false =>
          have hleads' := (Disk.leadsTo_put_content hl _ .empty).symm.trans hleads
          rw [Ruleset.textOfFiles_put hl hleads, Ruleset.textOfFiles_put hl hleads']
      | true =>
          rw [Ruleset.textOfFiles_put_of_isSilent (Disk.ne_nil_of_get? hl) htexts.isSilent_join
            hleads]
          rw [Disk.leadsTo_put_content hl _ "".toUTF8] at hleads
          exact (Ruleset.textOfFiles_put_of_isSilent (Disk.ne_nil_of_get? hl) hempty hleads).symm

theorem Wrote.expand (hout : ∀ l ∈ out, d.get? l ≠ some .folder) (h : Wrote d out texts s) :
    s.disk.expand = (readDisk d out).expand := by
  cases h with
  | memory => rfl
  | file => exact funext fun path => Disk.expand_put_content (hout _ rfl) _ _ path

/-- Whether a session is behind a text that it has written on an output. -/
def IsBehind (d : Disk) (out : Option Location) (text : String) (s : Session) : Prop :=
  ∃ texts, Wrote d out texts s ∧ AreOutput texts ∧ String.join texts = text

variable {text : String}

theorem IsBehind.report (h : IsBehind d out text s) (diagnostics : List Diagnostic) :
    IsBehind d out text { s with diagnostics } := by
  obtain ⟨texts, hwrote, htexts⟩ := h
  exact ⟨texts, hwrote.report diagnostics, htexts⟩

theorem join_withEnds (items : List String) :
    String.join (items.flatMap fun item => [item, "\n"]) = unlines items := by
  induction items with
  | nil => rfl
  | cons item items ih => simp [unlines_cons, ih, String.append_assoc]

theorem IsBehind.writeItems (hout : ∀ l ∈ out, d.get? l ≠ some .folder)
    (h : IsBehind d out text s) {items : List String} (hitems : ∀ item ∈ items, BeginsItem item) :
    ∃ s', s.writeItems items = (.ok (), s') ∧ IsBehind d out (text ++ unlines items) s' := by
  obtain ⟨texts, hwrote, htexts, rfl⟩ := h
  obtain ⟨s', hs', hwrote'⟩ :=
    hwrote.writeItems (fun l hl => Disk.ne_nil_of_get? (hout l hl)) items
  refine ⟨s', hs', _, hwrote', ?_, by rw [String.join_append, join_withEnds]⟩
  intro first hfirst
  cases texts with
  | nil =>
      cases items with
      | nil => cases hfirst
      | cons item items =>
          cases hfirst
          exact hitems _ (by simp)
  | cons other texts => exact htexts first hfirst

theorem IsBehind.takeFile (hout : ∀ l ∈ out, d.get? l ≠ some .folder)
    (h : IsBehind d out text s) (r : Ruleset) (path : String) :
    ∃ count s', s.takeFile r path = (.ok count, s') ∧
      IsBehind d out (text ++ r.textOfFiles (readDisk d out) [path]) s' := by
  have hfile : r.textOfFiles (readDisk d out) [path] = r.textOfFiles s.disk [path] := by
    obtain ⟨texts, hwrote, htexts, -⟩ := h
    exact (hwrote.textOfFiles hout htexts path).symm
  rw [hfile, Session.takeFile]
  cases hnodes : s.disk.readNodes path with
  | error e =>
      refine ⟨none, _, rfl, ?_⟩
      rw [(Ruleset.ofFile_of_error hnodes).1, String.append_empty]
      exact h.report _
  | ok nodes =>
      have hitems : ∀ item ∈ (r.items nodes).1, BeginsItem item := by
        rw [Disk.readNodes] at hnodes
        cases hread : s.disk.readText path with
        | error fault => simp [hread] at hnodes
        | ok source => exact Ruleset.beginsItem_of_mem_items (by simpa [hread] using hnodes)
      obtain ⟨s', hs', h'⟩ := (h.report (s.diagnostics ++ (r.items nodes).2)).writeItems hout hitems
      refine ⟨some (r.items nodes).1.length, s', ?_, ?_⟩
      · simp [takeNodes, hs', Except.map]
      · rwa [(Ruleset.ofFile_of_ok hnodes).1]

theorem IsBehind.takeFiles (hout : ∀ l ∈ out, d.get? l ≠ some .folder)
    (h : IsBehind d out text s) (r : Ruleset) (sum : Summary) (files : List String) :
    ∃ sum' s', s.takeFiles r sum files = (.ok sum', s') ∧
      IsBehind d out (text ++ r.textOfFiles (readDisk d out) files) s' := by
  induction files generalizing text s sum with
  | nil => exact ⟨sum, s, rfl, by simpa [Ruleset.textOfFiles] using h⟩
  | cons path files ih =>
      obtain ⟨count, s₁, hfile, h₁⟩ := h.takeFile hout r path
      rw [Session.takeFiles, hfile, ← List.singleton_append, Ruleset.textOfFiles_append,
        ← String.append_assoc]
      cases count with
      | none => exact ih h₁ _
      | some count => exact ih h₁ _

/-- The files of the paths are rendered as if they were read before anything is written. -/
theorem IsBehind.takePathsFrom (hout : ∀ l ∈ out, d.get? l ≠ some .folder)
    (h : IsBehind d out text s) (r : Ruleset) (sum : Summary) (paths : List String) :
    ∃ sum' s', s.takePathsFrom r sum paths = (.ok sum', s') ∧
      IsBehind d out
        (text ++ r.textOfFiles (readDisk d out) (paths.flatMap (readDisk d out).expand)) s' := by
  induction paths generalizing text s sum with
  | nil => exact ⟨sum, s, rfl, by simpa [Ruleset.textOfFiles] using h⟩
  | cons path paths ih =>
      have hexpand : s.disk.expand = (readDisk d out).expand := by
        obtain ⟨texts, hwrote, -⟩ := h
        exact hwrote.expand hout
      obtain ⟨sum₁, s₁, hfiles, h₁⟩ :=
        h.takeFiles hout r sum ((readDisk d out).expand path)
      rw [Session.takePathsFrom, hexpand, hfiles, List.flatMap_cons, Ruleset.textOfFiles_append,
        ← String.append_assoc]
      exact ih h₁ sum₁

theorem IsBehind.taken_eq (h : IsBehind d none text s) : s.output.taken = text.toUTF8 := by
  obtain ⟨texts, hwrote, -, rfl⟩ := h
  cases hwrote
  rfl

theorem IsBehind.flush_eq {l : Location} (hl : l ≠ []) (h : IsBehind d (some l) text s) :
    s.output.flush s.disk = d.put l (.file text.toUTF8) := by
  obtain ⟨texts, hwrote, -, rfl⟩ := h
  cases hwrote
  rw [toUTF8_join_append]
  exact Disk.append_put hl _ _

end Session

namespace CommandLine

/-- The text that stands in front of all items. -/
def opening (o : Options) : String :=
  if o.prelude then preludeText else ""

open Session in
/-- A run on an output that is open renders all files and ends well. -/
theorem isBehind_render (o : Options) (r : Ruleset) {d : Disk} {out : Option Location}
    (hout : ∀ l ∈ out, d.get? l ≠ some .folder) {output : Output}
    (hstart : Wrote d out [] ⟨readDisk d out, output, []⟩) :
    ∃ s, IsBehind d out (opening o ++ r.textOfFiles (readDisk d out)
        (o.paths.flatMap (readDisk d out).expand)) s ∧
      render o r (readDisk d out) output =
        ⟨0, s.output.taken, Diagnostic.log s.diagnostics, s.output.flush s.disk⟩ := by
  have hopened : ∃ s₁, (if o.prelude then (⟨readDisk d out, output, []⟩ : Session).write preludeText
      else (.ok (), ⟨readDisk d out, output, []⟩)) = (.ok (), s₁) ∧
      IsBehind d out (opening o) s₁ := by
    rw [opening]
    split
    · obtain ⟨s₁, hwrite, hwrote⟩ :=
        hstart.write (fun l hl => Disk.ne_nil_of_get? (hout l hl)) preludeText
      refine ⟨s₁, hwrite, _, hwrote, ?_, by simp⟩
      intro text htext
      cases htext
      exact ⟨[], "use ", "std::collections::HashMap;\n\n", by simp, by simp [itemHeads], rfl⟩
    · exact ⟨_, rfl, [], hstart, by simp [AreOutput], rfl⟩
  obtain ⟨s₁, hfirst, h₁⟩ := hopened
  obtain ⟨sum, s, hpaths, h⟩ := h₁.takePathsFrom hout r ⟨0, 0, 0⟩ o.paths
  refine ⟨s, h, ?_⟩
  simp only [render, hfirst, Session.takePaths, hpaths]

/-! ### What is lost to a run -/

section Lost

variable (r : Ruleset) (d : Disk) {l : Location} (p : String → Bool)

theorem textOfFiles_cons (file : String) (files : List String) :
    r.textOfFiles d (file :: files) = r.textOfFiles d [file] ++ r.textOfFiles d files := by
  rw [← List.singleton_append, Ruleset.textOfFiles_append]

theorem length_textOfFiles_filter_le (files : List String) :
    (r.textOfFiles d (files.filter p)).length ≤ (r.textOfFiles d files).length := by
  induction files with
  | nil => exact Nat.le_refl _
  | cons file files ih =>
      rw [textOfFiles_cons, String.length_append]
      by_cases hfile : p file = true
      · rw [List.filter_cons_of_pos hfile, textOfFiles_cons, String.length_append]
        omega
      · rw [List.filter_cons_of_neg hfile]
        omega

/-- Files can be left out of a batch if they give nothing. -/
theorem textOfFiles_filter_eq_iff (files : List String) :
    r.textOfFiles d (files.filter p) = r.textOfFiles d files ↔
      ∀ file ∈ files, p file = false → r.textOfFiles d [file] = "" := by
  induction files with
  | nil => simp
  | cons file files ih =>
      rw [textOfFiles_cons, List.forall_mem_cons, ← ih]
      by_cases hfile : p file = true
      · rw [List.filter_cons_of_pos hfile, textOfFiles_cons, String.append_right_inj]
        simp [hfile]
      · rw [List.filter_cons_of_neg hfile]
        constructor
        · intro h
          have hle := length_textOfFiles_filter_le r d p files
          rw [h, String.length_append] at hle
          have hempty : r.textOfFiles d [file] = "" := String.length_eq_zero_iff.mp (by omega)
          exact ⟨fun _ => hempty, by rw [h, hempty, String.empty_append]⟩
        · rintro ⟨hempty, h⟩
          rw [hempty (by simpa using hfile), h, String.empty_append]

theorem textOfFiles_filter_put (hl : d.get? l ≠ some .folder) (content : ByteArray)
    (files : List String) :
    r.textOfFiles (d.put l (.file content))
        (files.filter fun file => !(d.put l (.file content)).leadsTo l file) =
      r.textOfFiles d (files.filter fun file => !(d.put l (.file content)).leadsTo l file) := by
  induction files with
  | nil => rfl
  | cons file files ih =>
      cases hfile : (d.put l (.file content)).leadsTo l file with
      | true => rwa [List.filter_cons_of_neg (by simp [hfile])]
      | false =>
          rw [List.filter_cons_of_pos (by simp [hfile]), textOfFiles_cons, textOfFiles_cons r d, ih,
            Ruleset.textOfFiles_put hl hfile]

theorem filter_flatMap_expand_put (hd : d.IsTree) (hl : d.get? l ≠ some .folder)
    (hnames : ∀ name ∈ l, Disk.IsName name) (content : ByteArray) (paths : List String) :
    (paths.flatMap (d.put l (.file content)).expand).filter
        (fun file => !(d.put l (.file content)).leadsTo l file) =
      (paths.flatMap d.expand).filter (fun file => !(d.put l (.file content)).leadsTo l file) := by
  induction paths with
  | nil => rfl
  | cons path paths ih =>
      rw [List.flatMap_cons, List.flatMap_cons, List.filter_append, List.filter_append, ih,
        Disk.filter_expand_put hd hl hnames]

/-- A run that writes a file renders what it renders otherwise, but not the files that are read
where it writes. -/
theorem textOfFiles_readDisk (hd : d.IsTree) (hl : d.get? l ≠ some .folder)
    (hnames : ∀ name ∈ l, Disk.IsName name) (paths : List String) :
    r.textOfFiles (Session.readDisk d (some l))
        (paths.flatMap (Session.readDisk d (some l)).expand) =
      r.textOfFiles d ((paths.flatMap d.expand).filter fun file =>
        !(Session.readDisk d (some l)).leadsTo l file) := by
  have hempty : (ByteArray.empty : ByteArray) = "".toUTF8 := rfl
  have hsilent : Ruleset.IsSilent "" := .inl rfl
  rw [Session.readDisk, hempty, ← filter_flatMap_expand_put d hd hl hnames,
    ← textOfFiles_filter_put r d hl, eq_comm, textOfFiles_filter_eq_iff]
  intro file _ hfile
  refine Ruleset.textOfFiles_put_of_isSilent (Disk.ne_nil_of_get? hl) hsilent ?_
  simpa using hfile

end Lost

/-- Whether the output of a run can be sent to the file that a path names: if the run ends well
without it, it ends well with it, and leaves what it printed in the file and all else as it was. -/
def Redirects (o : Options) (path : String) (d : Disk) : Prop :=
  let printed := runOptions { o with output := none } d
  let written := runOptions { o with output := some path } d
  printed.exitCode = 0 → ∀ created l, d.create path = .ok (created, l) →
    written.exitCode = 0 ∧ written.disk.get? l = some (.file printed.stdout) ∧
      ∀ m, m ≠ l → written.disk.get? m = d.get? m

theorem runOptions_printed {o : Options} {r : Ruleset} {d : Disk} (hpaths : o.paths ≠ [])
    (hruleset : ruleset o d = .ok r) :
    (runOptions { o with output := none } d).exitCode = 0 ∧
      (runOptions { o with output := none } d).stdout =
        (opening o ++ r.textOfFiles d (o.paths.flatMap d.expand)).toUTF8 := by
  have hruleset' : ruleset { o with output := none } d = .ok r := hruleset
  have hstart : Session.Wrote d none [] ⟨Session.readDisk d none, .empty none, []⟩ := .memory
  obtain ⟨s, hs, hrender⟩ := isBehind_render { o with output := none } r (by simp) hstart
  simp only [runOptions, if_neg hpaths, hruleset', Session.readDisk] at hrender ⊢
  rw [hrender]
  exact ⟨rfl, hs.taken_eq⟩

theorem runOptions_written {o : Options} {r : Ruleset} {d created : Disk} {l : Location}
    {path : String} (hd : d.IsTree) (hpaths : o.paths ≠ []) (hruleset : ruleset o d = .ok r)
    (hcreate : d.create path = .ok (created, l)) :
    (runOptions { o with output := some path } d).exitCode = 0 ∧
      (runOptions { o with output := some path } d).disk =
        d.put l (.file (opening o ++ r.textOfFiles d ((o.paths.flatMap d.expand).filter
          fun file => !(Session.readDisk d (some l)).leadsTo l file)).toUTF8) := by
  have hruleset' : ruleset { o with output := some path } d = .ok r := hruleset
  obtain ⟨rfl, hl, hnames⟩ := Disk.create_eq_ok hd hcreate
  have hstart : Session.Wrote d (some l) [] ⟨Session.readDisk d (some l), .file l .empty, []⟩ :=
    @Session.Wrote.file d l [] [] []
  obtain ⟨s, hs, hrender⟩ :=
    isBehind_render { o with output := some path } r (by simpa using hl) hstart
  rw [textOfFiles_readDisk r d hd hl hnames] at hs
  simp only [runOptions, if_neg hpaths, hruleset', hcreate, Session.readDisk] at hrender ⊢
  rw [hrender]
  exact ⟨rfl, hs.flush_eq (Disk.ne_nil_of_get? hl)⟩

/-- A path leads to the output file if it leads there before, or else if it leads nowhere. -/
theorem readDisk_leadsTo_imp_iff {r : Ruleset} {d : Disk} {l : Location} {file : String}
    (hl : d.get? l ≠ some .folder) :
    ((Session.readDisk d (some l)).leadsTo l file = true → r.textOfFiles d [file] = "") ↔
      (d.resolve file = .ok l → r.textOfFiles d [file] = "") := by
  rw [Disk.leadsTo_iff, Session.readDisk]
  refine ⟨fun h hfile => h (Disk.resolve_put hl hfile), fun h hfile => ?_⟩
  cases hbefore : d.resolve file with
  | error fault => exact Ruleset.textOfFiles_of_resolve hbefore
  | ok k =>
      obtain rfl := Except.ok.inj ((Disk.resolve_put hl hbefore).symm.trans hfile)
      exact h hbefore

/-- The output can be sent to a file exactly if every file that is read there gives nothing. -/
theorem redirects_iff (o : Options) (path : String) (d : Disk) (hd : d.IsTree)
    (hpaths : o.paths ≠ []) :
    Redirects o path d ↔
      ∀ r created l, ruleset o d = .ok r → d.create path = .ok (created, l) →
        ∀ file ∈ o.paths.flatMap d.expand, d.resolve file = .ok l →
          r.textOfFiles d [file] = "" := by
  cases hruleset : ruleset o d with
  | error e =>
      -- Without a ruleset no run ends well, so nothing is asked of the files.
      have hfailed : (runOptions { o with output := none } d).exitCode = 1 := by
        have hruleset' : ruleset { o with output := none } d = .error e := hruleset
        simp only [runOptions, if_neg hpaths, hruleset']
        rfl
      constructor
      · intro _ r created l hr
        cases hr
      · intro _ hprinted
        rw [hfailed] at hprinted
        cases hprinted
  | ok r =>
      obtain ⟨hexit, hstdout⟩ := runOptions_printed hpaths hruleset
      -- Only the content of the file is in question, and it is what is left of the files.
      have hlost {created : Disk} {l : Location} (hcreate : d.create path = .ok (created, l)) :
          ((runOptions { o with output := some path } d).exitCode = 0 ∧
            (runOptions { o with output := some path } d).disk.get? l =
              some (.file (runOptions { o with output := none } d).stdout) ∧
            ∀ m, m ≠ l → (runOptions { o with output := some path } d).disk.get? m = d.get? m) ↔
          ∀ file ∈ o.paths.flatMap d.expand, d.resolve file = .ok l →
            r.textOfFiles d [file] = "" := by
        obtain ⟨hwritten, hdisk⟩ := runOptions_written hd hpaths hruleset hcreate
        obtain ⟨-, hl, -⟩ := Disk.create_eq_ok hd hcreate
        rw [hdisk, hstdout, Disk.get?_put_self (Disk.ne_nil_of_get? hl), and_iff_right hwritten,
          and_iff_left fun m hm => Disk.get?_put_of_ne hm, Option.some_inj, Entry.file.injEq,
          String.toUTF8_eq_toByteArray, String.toUTF8_eq_toByteArray, String.toByteArray_inj,
          String.append_right_inj, textOfFiles_filter_eq_iff]
        refine forall₂_congr fun file _ => ?_
        simpa using readDisk_leadsTo_imp_iff hl
      constructor
      · intro h r' created l hr hcreate
        cases hr
        exact (hlost hcreate).mp (h hexit created l hcreate)
      · intro h _ created l hcreate
        exact (hlost hcreate).mpr (h r created l rfl hcreate)

/-- A folder with two Go files, of which one declares no type. -/
def twoPackages : Disk :=
  ⟨[(["a.go"], .file "type A int\n".toUTF8), (["out.go"], .file "package out\n".toUTF8)], []⟩

/-- A file without declarations among those that are rendered can take the output. -/
theorem redirects_twoPackages :
    twoPackages.IsTree ∧ ["."] ≠ [] ∧
      Redirects ⟨["."], none, none, none, true⟩ "./out.go" twoPackages := by
  have htree : twoPackages.IsTree := ⟨by decide +kernel, by decide +kernel⟩
  refine ⟨htree, by simp, (redirects_iff _ _ _ htree (by simp)).mpr ?_⟩
  intro r created l _ hcreate file _ hfile
  have hplace : l = ["out.go"] := by
    have h : (twoPackages.create "./out.go").toOption.map Prod.snd = some ["out.go"] := by
      decide +kernel
    rw [hcreate] at h
    exact Option.some.inj h
  have hnodes : twoPackages.readNodes file = .ok [.other "package out"] := by
    have hread : twoPackages.readText file = .ok "package out\n" := by
      have hpath : twoPackages.resolve "out.go" = .ok ["out.go"] := rfl
      have htext : twoPackages.readText "out.go" = .ok "package out\n" := by decide +kernel
      rw [Disk.readText, hpath] at htext
      rwa [Disk.readText, hfile, hplace]
    rw [Disk.readNodes, hread]
    have hsource : Node.ofSource "package out\n" = .ok [.other "package out"] :=
      eq_ok_of_toOption (by decide +kernel)
    exact hsource
  exact (Ruleset.ofFile_of_ok hnodes).1

/-- A folder with one Go file. -/
def onePackage : Disk :=
  ⟨[(["a.go"], .file "type A int\n".toUTF8)], []⟩

/-- A file that takes the output of its own declarations is empty afterwards. -/
theorem not_redirects_onePackage :
    onePackage.IsTree ∧
      (run ["a.go"] onePackage).stdout = "pub type A = i32;\n\n".toUTF8 ∧
      (run ["a.go", "-o", "a.go"] onePackage).disk.get? ["a.go"] = some (.file .empty) ∧
      ¬ Redirects ⟨["a.go"], none, none, none, false⟩ "a.go" onePackage := by
  have hprinted : (run ["a.go"] onePackage).stdout = "pub type A = i32;\n\n".toUTF8 := by
    decide +kernel
  refine ⟨⟨by decide +kernel, by decide +kernel⟩, hprinted, by decide +kernel, ?_⟩
  have hcreate : ∃ created, onePackage.create "a.go" = .ok (created, ["a.go"]) := ⟨_, rfl⟩
  obtain ⟨created, hcreate⟩ := hcreate
  intro h
  obtain ⟨-, hcontent, -⟩ := h (by decide +kernel) created ["a.go"] hcreate
  revert hcontent
  decide +kernel

end CommandLine

end DeclBridge
