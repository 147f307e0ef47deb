import DeclBridge.Proofs.Accounting
import DeclBridge.Proofs.Output
import DeclBridge.Session

/-!
Source texts on one output with a limit. The output holds the beginning of what the source texts
give one by one, and what is lost behind the limit changes no diagnostic.
-/

namespace DeclBridge

theorem toUTF8_append (s t : String) : (s ++ t).toUTF8 = s.toUTF8 ++ t.toUTF8 := by
  simp only [String.toUTF8_eq_toByteArray, String.toByteArray_append]

theorem unlines_eq_empty_iff {lines : List String} : unlines lines = "" ↔ lines = [] := by
  cases lines with
  | nil => exact ⟨fun _ => rfl, fun _ => rfl⟩
  | cons line lines => simp [unlines_cons]

namespace Session

/-- What becomes of bytes behind `all` others on an output in memory: the answer is a fault if some
of the bytes are lost. -/
def offer (s : Session) (limit : Option Nat) (all bytes : ByteArray) :
    Except Error Unit × Session :=
  (if bytes.size = 0 ∨ HasRoom limit (all.size + bytes.size) then .ok ()
    else .error (.disk outputPath .full),
    { s with output := .memory limit (limited limit (all ++ bytes)) })

/-- Bytes in two parts are taken as the whole is. -/
theorem offer_append (s : Session) (limit : Option Nat) (all bytes more : ByteArray) :
    s.offer limit all (bytes ++ more) =
      match s.offer limit all bytes with
      | (.error e, s') => (.error e, s')
      | (.ok (), s') => s'.offer limit (all ++ bytes) more := by
  by_cases hbytes : bytes.size = 0 ∨ HasRoom limit (all.size + bytes.size)
  · have hmore : ((bytes ++ more).size = 0 ∨ HasRoom limit (all.size + (bytes ++ more).size)) ↔
        (more.size = 0 ∨ HasRoom limit ((all ++ bytes).size + more.size)) := by
      simp only [ByteArray.size_append, Nat.add_assoc]
      constructor
      · rintro (hempty | hroom)
        · left
          omega
        · exact .inr hroom
      · rintro (hempty | hroom)
        · rw [hempty, Nat.add_zero]
          exact hbytes
        · exact .inr hroom
    simp only [offer, if_pos hbytes, hmore, ByteArray.append_assoc]
  · -- The first part is cut off, so nothing of the second one is written.
    obtain ⟨hne, hfull⟩ := not_or.mp hbytes
    have hwhole : ¬ ((bytes ++ more).size = 0 ∨
        HasRoom limit (all.size + (bytes ++ more).size)) := by
      rw [ByteArray.size_append]
      rintro (hempty | hroom)
      · omega
      · exact hfull (hroom.mono (by omega))
    rw [← ByteArray.size_append] at hfull
    simp only [offer, if_neg hbytes, if_neg hwhole, ← ByteArray.append_assoc,
      limited_append_of_not_hasRoom hfull]

variable {s s' : Session} {limit : Option Nat} {all bytes : ByteArray} {result : Except Error Unit}

theorem output_of_offer (h : s.offer limit all bytes = (result, s')) :
    s'.output = .memory limit (limited limit (all ++ bytes)) := by
  cases h
  rfl

theorem write_memory (hs : s.output = .memory limit (limited limit all)) (text : String) :
    s.write text = s.offer limit all text.toUTF8 := by
  rw [offer]
  by_cases h : text.toUTF8.size = 0 ∨ HasRoom limit (all.size + text.toUTF8.size)
  · simp only [write, hs, Output.write_memory, if_pos h]
    rfl
  · simp only [write, hs, Output.write_memory, if_neg h]
    rfl

/-- Items are taken as their text is, although they are written in parts. -/
theorem writeItems_memory (hs : s.output = .memory limit (limited limit all))
    (texts : List String) : s.writeItems texts = s.offer limit all (unlines texts).toUTF8 := by
  induction texts generalizing s all with
  | nil =>
      have hempty : (unlines []).toUTF8 = ByteArray.empty := rfl
      rw [hempty, offer, if_pos (.inl rfl), ByteArray.append_empty, ← hs]
      rfl
  | cons text texts ih =>
      have hbytes : (unlines (text :: texts)).toUTF8 =
          text.toUTF8 ++ ("\n".toUTF8 ++ (unlines texts).toUTF8) := by
        rw [unlines_cons, toUTF8_append, toUTF8_append, ByteArray.append_assoc]
      rw [hbytes, offer_append, writeItems, write_memory hs]
      cases htext : s.offer limit all text.toUTF8 with
      | mk result s₁ =>
        cases result with
        | error e => rfl
        | ok _ =>
            have hs₁ := output_of_offer htext
            simp only [offer_append, write_memory hs₁]
            cases hend : s₁.offer limit (all ++ text.toUTF8) "\n".toUTF8 with
            | mk result s₂ =>
              cases result with
              | error e => rfl
              | ok _ => exact ih (output_of_offer hend)

theorem takeNodes_memory (hs : s.output = .memory limit (limited limit all)) (r : Ruleset)
    (nodes : List Node) :
    s.takeNodes r nodes =
      (if (r.items nodes).1 = [] ∨
            HasRoom limit (all.size + (unlines (r.items nodes).1).toUTF8.size) then
          .ok (r.items nodes).1.length
        else .error (.disk outputPath .full),
        ⟨s.disk, .memory limit (limited limit (all ++ (unlines (r.items nodes).1).toUTF8)),
          s.diagnostics ++ (r.items nodes).2⟩) := by
  have hempty : (unlines (r.items nodes).1).toUTF8.size = 0 ↔ (r.items nodes).1 = [] := by
    rw [String.toUTF8_eq_toByteArray, String.size_toByteArray, String.utf8ByteSize_eq_zero_iff,
      unlines_eq_empty_iff]
  have hreported (diagnostics : List Diagnostic) :=
    writeItems_memory (s := { s with diagnostics }) hs (r.items nodes).1
  simp only [takeNodes, hreported, offer, hempty]
  split <;> rfl

end Session

namespace Ruleset

variable (r : Ruleset)

/-- What the source texts that can be read give, in their order. -/
def outputsOfSources (sources : List String) : List (String × List Diagnostic) :=
  sources.filterMap fun source => (r.outputOfSource source).toOption

def textOfSources (sources : List String) : String :=
  String.join ((r.outputsOfSources sources).map Prod.fst)

def diagnosticsOfSources (sources : List String) : List Diagnostic :=
  (r.outputsOfSources sources).flatMap Prod.snd

theorem textOfSources_append (sources others : List String) :
    r.textOfSources (sources ++ others) = r.textOfSources sources ++ r.textOfSources others := by
  rw [textOfSources, outputsOfSources, List.filterMap_append, List.map_append, String.join_append]
  rfl

theorem diagnosticsOfSources_append (sources others : List String) :
    r.diagnosticsOfSources (sources ++ others) =
      r.diagnosticsOfSources sources ++ r.diagnosticsOfSources others := by
  rw [diagnosticsOfSources, outputsOfSources, List.filterMap_append, List.flatMap_append]
  rfl

variable {r} in
theorem ofSources_of_error {source : String} {e : Error} (h : r.outputOfSource source = .error e) :
    r.textOfSources [source] = "" ∧ r.diagnosticsOfSources [source] = [] := by
  simp [textOfSources, diagnosticsOfSources, outputsOfSources, h, Except.toOption]

variable {r} in
theorem ofSources_of_ok {source : String} {nodes : List Node}
    (h : Node.ofSource source = .ok nodes) :
    r.textOfSources [source] = unlines (r.items nodes).1 ∧
      r.diagnosticsOfSources [source] = (r.items nodes).2 := by
  have houtput : r.outputOfSource source = .ok (unlines (r.items nodes).1, (r.items nodes).2) := by
    rw [outputOfSource_eq, h]
    rfl
  simp [textOfSources, diagnosticsOfSources, outputsOfSources, houtput, Except.toOption]

/-- The answer for a source text behind others on an output with a limit: what keeps the text from
being read, or the number of its items if there is room for all up to its last, or a fault of the
output. -/
structure Answers (limit : Option Nat) (before : List String) (source : String)
    (answer : Except Error Nat) : Prop where
  unreadable : ∀ e, r.outputOfSource source = .error e → answer = .error e
  ok_iff : ∀ texts diagnostics, r.itemsOfSource source = .ok (texts, diagnostics) →
    (answer = .ok texts.length ↔
      unlines texts = "" ∨ HasRoom limit (r.textOfSources (before ++ [source])).toUTF8.size)
  full : ∀ texts diagnostics, r.itemsOfSource source = .ok (texts, diagnostics) →
    answer = .ok texts.length ∨ answer = .error (.disk Session.outputPath .full)

variable {r} {limit : Option Nat} {before : List String} {source : String}

theorem answers_of_error {e : Error} (h : r.outputOfSource source = .error e) :
    r.Answers limit before source (.error e) := by
  have hitems : r.itemsOfSource source = .error e := by
    rw [itemsOfSource, outputOfSource_eq_error.mp h]
    rfl
  constructor
  · intro e' he'
    exact congrArg _ (Except.error.inj (h.symm.trans he'))
  · intro texts diagnostics htexts
    cases hitems.symm.trans htexts
  · intro texts diagnostics htexts
    cases hitems.symm.trans htexts

theorem answers_of_ok {nodes : List Node} (h : Node.ofSource source = .ok nodes) :
    r.Answers limit before source
      (if (r.items nodes).1 = [] ∨
          HasRoom limit (r.textOfSources (before ++ [source])).toUTF8.size then
        .ok (r.items nodes).1.length
      else .error (.disk Session.outputPath .full)) := by
  have hitems : r.itemsOfSource source = .ok (r.items nodes) := by
    rw [itemsOfSource, h]
    rfl
  constructor
  · intro e he
    rw [outputOfSource_eq_error, h] at he
    cases he
  · intro texts diagnostics htexts
    rw [Except.ok.inj (hitems.symm.trans htexts), unlines_eq_empty_iff]
    split
    · next hroom => exact ⟨fun _ => hroom, fun _ => rfl⟩
    · next hfull =>
      constructor
      · intro h
        cases h
      · intro hroom
        exact absurd hroom hfull
  · intro texts diagnostics htexts
    rw [Except.ok.inj (hitems.symm.trans htexts)]
    split
    · exact .inl rfl
    · exact .inr rfl

end Ruleset

namespace Session

/-- Renders source texts one after the other, each whatever became of those before it. -/
def takeSources (r : Ruleset) (s : Session) : List String → List (Except Error Nat) × Session
  | [] => ([], s)
  | source :: sources =>
      let (answer, s) := s.takeSource r source
      let (answers, s) := s.takeSources r sources
      (answer :: answers, s)

/-- The session behind source texts. -/
def behind (r : Ruleset) (d : Disk) (limit : Option Nat) (sources : List String) : Session :=
  ⟨d, .memory limit (limited limit (r.textOfSources sources).toUTF8),
    r.diagnosticsOfSources sources⟩

variable (r : Ruleset) (d : Disk) (limit : Option Nat) (before : List String)

theorem behind_nil : behind r d limit [] = ⟨d, .empty limit, []⟩ := by
  have hroom : HasRoom limit ByteArray.empty.size := fun n _ => Nat.zero_le n
  have hempty : limited limit (r.textOfSources []).toUTF8 = .empty := limited_of_hasRoom hroom
  rw [behind, hempty]
  rfl

theorem takeSource_of_error {r : Ruleset} {source : String} {e : Error}
    (h : r.outputOfSource source = .error e) (s : Session) :
    s.takeSource r source = (.error e, s) := by
  rw [takeSource, Ruleset.outputOfSource_eq_error.mp h]

theorem takeSource_behind (source : String) :
    ∃ answer, (behind r d limit before).takeSource r source =
        (answer, behind r d limit (before ++ [source])) ∧
      r.Answers limit before source answer := by
  cases hsource : Node.ofSource source with
  | error e =>
      have herror : r.outputOfSource source = .error e :=
        Ruleset.outputOfSource_eq_error.mpr hsource
      obtain ⟨htext, hdiagnostics⟩ := Ruleset.ofSources_of_error herror
      refine ⟨.error e, ?_, Ruleset.answers_of_error herror⟩
      rw [takeSource_of_error herror, behind, behind, Ruleset.textOfSources_append,
        Ruleset.diagnosticsOfSources_append, htext, hdiagnostics, String.append_empty,
        List.append_nil]
  | ok nodes =>
      obtain ⟨htext, hdiagnostics⟩ := Ruleset.ofSources_of_ok (r := r) hsource
      refine ⟨_, ?_, Ruleset.answers_of_ok hsource⟩
      have hall : (r.textOfSources (before ++ [source])).toUTF8 =
          (r.textOfSources before).toUTF8 ++ (unlines (r.items nodes).1).toUTF8 := by
        rw [Ruleset.textOfSources_append, htext, toUTF8_append]
      rw [takeSource, hsource, behind, behind, Ruleset.diagnosticsOfSources_append, hdiagnostics,
        hall, ByteArray.size_append]
      exact takeNodes_memory rfl r nodes

/-- Every source text of a session is answered as what stands before it has it, and the session
is then behind all of them. -/
theorem takeSources_behind (sources : List String) :
    ((behind r d limit before).takeSources r sources).2 = behind r d limit (before ++ sources) ∧
    ∀ earlier source later, sources = earlier ++ source :: later →
      ∃ answer, ((behind r d limit before).takeSources r sources).1[earlier.length]? = some answer ∧
        r.Answers limit (before ++ earlier) source answer := by
  induction sources generalizing before with
  | nil =>
      refine ⟨by rw [List.append_nil]; rfl, ?_⟩
      intro earlier source later h
      simp at h
  | cons first sources ih =>
      obtain ⟨answer, hstep, hanswer⟩ := takeSource_behind r d limit before first
      obtain ⟨hlast, hanswers⟩ := ih (before ++ [first])
      rw [takeSources, hstep]
      refine ⟨by simpa using hlast, ?_⟩
      intro earlier source later h
      cases earlier with
      | nil =>
          obtain ⟨rfl, -⟩ := List.cons.inj h
          exact ⟨answer, rfl, by rwa [List.append_nil]⟩
      | cons other earlier =>
          rw [List.cons_append] at h
          obtain ⟨rfl, hsources⟩ := List.cons.inj h
          obtain ⟨answer', hget, hanswer'⟩ := hanswers earlier source later hsources
          exact ⟨answer', hget, by simpa using hanswer'⟩

/-- Source texts on one output with a limit write the beginning of what they give together, and
report all of it. A text that cannot be read does neither, and the answer for every text tells
whether it is written as a whole. -/
theorem takeSources_limited (r : Ruleset) (d : Disk) (limit : Option Nat) (sources : List String) :
    ((⟨d, .empty limit, []⟩ : Session).takeSources r sources).2 =
      ⟨d, .memory limit (limited limit (r.textOfSources sources).toUTF8),
        r.diagnosticsOfSources sources⟩ ∧
    (∀ before source after, sources = before ++ source :: after →
      ∃ answer, ((⟨d, .empty limit, []⟩ : Session).takeSources r sources).1[before.length]? =
          some answer ∧ r.Answers limit before source answer) ∧
    ∀ s source e, r.outputOfSource source = .error e → takeSource r s source = (.error e, s) := by
  rw [← behind_nil r]
  obtain ⟨hlast, hanswers⟩ := takeSources_behind r d limit [] sources
  exact ⟨hlast, hanswers, fun s _ _ h => takeSource_of_error h s⟩

end Session

end DeclBridge
