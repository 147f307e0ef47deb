import DeclBridge.Proofs.Json.Reading
import DeclBridge.Proofs.Ruleset.Overrides
import DeclBridge.Ruleset.OfJson

/-!
Rulesets that are loaded key by key. An object gives the values of a ruleset for some of its keys,
in any order and among other members; the keys that it does not give keep their values of the
current ruleset.
-/

namespace DeclBridge

open JsonValue

def PointerPolicy.name : PointerPolicy → String
  | box => "box"
  | strip => "strip"

namespace Ruleset

inductive Key where
  | pointerPolicy
  | acronyms
  | overrides
  | dynamicType
  | tagKey
deriving DecidableEq

def IsText (value : JsonValue) (text : String) : Prop :=
  ∃ codes, value = .string codes ∧ Spells codes text.toList

namespace Key

def name : Key → String
  | pointerPolicy => "pointer_policy"
  | acronyms => "acronyms"
  | overrides => "keyword_overrides"
  | dynamicType => "dynamic_type"
  | tagKey => "tag_key"

/-- A value gives what a ruleset has for a key. A table is given by entries, of which the last one
counts for each name. -/
inductive Gives (r : Ruleset) : Key → JsonValue → Prop where
  | policyName {value : JsonValue} :
      IsText value r.pointerPolicy.name → Gives r pointerPolicy value
  | policyObject {codes : List Nat} :
      Spells codes r.pointerPolicy.name.toList → Gives r pointerPolicy (.object [(codes, .null)])
  | acronyms {items : List JsonValue} :
      List.Forall₂ IsText items r.acronyms → Gives r acronyms (.array items)
  | overrides {members : List (List Nat × JsonValue)} {entries : List (String × String)} :
      List.Forall₂ (fun m entry => Spells m.1 entry.1.toList ∧ IsText m.2 entry.2) members entries →
      (∀ name, entries.reverse.lookup name = r.overrides.get? name) →
      Gives r overrides (.object members)
  | noDynamicType : r.dynamicType = none → Gives r dynamicType .null
  | dynamicType {value : JsonValue} {type : String} :
      r.dynamicType = some type → IsText value type → Gives r dynamicType value
  | tagKey {value : JsonValue} : IsText value r.tagKey → Gives r tagKey value

end Key

/-- The members of an object give the values of a ruleset for the keys, in this order. Members of
other names stand among them. -/
inductive GivesKeys (r : Ruleset) : List Key → List (List Nat × JsonValue) → Prop where
  | nil : GivesKeys r [] []
  | known {k : Key} {codes : List Nat} {value : JsonValue} {keys : List Key}
      {members : List (List Nat × JsonValue)} :
      Spells codes k.name.toList → k.Gives r value → GivesKeys r keys members →
      GivesKeys r (k :: keys) ((codes, value) :: members)
  | unknown {codes : List Nat} {value : JsonValue} {keys : List Key}
      {members : List (List Nat × JsonValue)} :
      (∀ k : Key, ¬ Spells codes k.name.toList) → GivesKeys r keys members →
      GivesKeys r keys ((codes, value) :: members)

/-- The ruleset that has the values of `r` for the given keys and those of the current ruleset for
the others. -/
def onKeys (r : Ruleset) (keys : List Key) : Ruleset where
  pointerPolicy := if .pointerPolicy ∈ keys then r.pointerPolicy else current.pointerPolicy
  acronyms := if .acronyms ∈ keys then r.acronyms else current.acronyms
  overrides := if .overrides ∈ keys then r.overrides else current.overrides
  dynamicType := if .dynamicType ∈ keys then r.dynamicType else current.dynamicType
  tagKey := if .tagKey ∈ keys then r.tagKey else current.tagKey

variable {r : Ruleset} {k : Key} {keys : List Key} {value : JsonValue}
  {members : List (List Nat × JsonValue)}

theorem asText?_of_isText {text : String} (h : IsText value text) : value.asText? = some text := by
  obtain ⟨codes, rfl, hcodes⟩ := h
  exact text?_eq_some_iff.mpr hcodes

theorem policyOfName?_name (p : PointerPolicy) : policyOfName? p.name = some p := by
  cases p <;> decide

theorem mapM_eq_some_of_forall₂ {α β : Type} {f : α → Option β} {xs : List α} {ys : List β}
    (h : List.Forall₂ (fun x y => f x = some y) xs ys) : xs.mapM f = some ys := by
  induction h with
  | nil => rfl
  | cons hx _ ih => rw [List.mapM_cons, hx, ih]; rfl

/-- The ruleset `s` with the value of `r` for a key. -/
def put (s : Ruleset) (k : Key) (r : Ruleset) : Ruleset :=
  match k with
  | .pointerPolicy => { s with pointerPolicy := r.pointerPolicy }
  | .acronyms => { s with acronyms := r.acronyms }
  | .overrides => { s with overrides := r.overrides }
  | .dynamicType => { s with dynamicType := r.dynamicType }
  | .tagKey => { s with tagKey := r.tagKey }

theorem put_onKeys : (r.onKeys keys).put k r = r.onKeys (k :: keys) := by
  cases k <;> simp [put, onKeys]

/-- A value that gives what `r` has for a key is taken over. -/
theorem set?_of_gives (h : k.Gives r value) (s : Ruleset) :
    s.set? k.name value = some (s.put k r) := by
  cases h with
  | policyName h =>
      obtain ⟨codes, rfl, hcodes⟩ := h
      have hpolicy : policyOfJson? (.string codes) = some r.pointerPolicy := by
        simp [policyOfJson?, text?_eq_some_iff.mpr hcodes, policyOfName?_name]
      simp [set?, Key.name, put, hpolicy]
  | @policyObject codes hcodes =>
      have hpolicy : policyOfJson? (.object [(codes, .null)]) = some r.pointerPolicy := by
        simp [policyOfJson?, text?_eq_some_iff.mpr hcodes, policyOfName?_name]
      simp [set?, Key.name, put, hpolicy]
  | @acronyms items h =>
      have htexts : textsOfJson? (.array items) = some r.acronyms :=
        mapM_eq_some_of_forall₂ (h.imp fun _ _ => asText?_of_isText)
      simp [set?, Key.name, put, htexts]
  | @overrides members entries h hentries =>
      have htable : Overrides.ofList entries = r.overrides :=
        Overrides.ext_get? fun name => (Overrides.get?_ofList entries).trans (hentries name)
      have hoverrides : overridesOfJson? (.object members) = some r.overrides := by
        rw [overridesOfJson?, mapM_eq_some_of_forall₂ (h.imp ?_)]
        · exact congrArg some htable
        · rintro ⟨codes, value⟩ ⟨name, replacement⟩ ⟨hcodes, hvalue⟩
          simp [text?_eq_some_iff.mpr hcodes, asText?_of_isText hvalue]
      simp [set?, Key.name, put, hoverrides]
  | noDynamicType h => simp [set?, Key.name, put, optionalTextOfJson?, h]
  | @dynamicType value type htype h =>
      obtain ⟨codes, rfl, hcodes⟩ := h
      have hvalue : optionalTextOfJson? (.string codes) = some r.dynamicType := by
        simp [optionalTextOfJson?, JsonValue.asText?, text?_eq_some_iff.mpr hcodes, htype]
      simp [set?, Key.name, put, hvalue]
  | tagKey h => simp [set?, Key.name, put, asText?_of_isText h]

theorem mem_keys_iff {name : String} : name ∈ Ruleset.keys ↔ ∃ k : Key, k.name = name := by
  constructor
  · intro h
    simp only [Ruleset.keys, List.mem_cons, List.not_mem_nil, or_false] at h
    rcases h with rfl | rfl | rfl | rfl | rfl
    · exact ⟨.pointerPolicy, rfl⟩
    · exact ⟨.acronyms, rfl⟩
    · exact ⟨.overrides, rfl⟩
    · exact ⟨.dynamicType, rfl⟩
    · exact ⟨.tagKey, rfl⟩
  · rintro ⟨k, rfl⟩
    cases k <;> decide

theorem name_injective : Function.Injective Key.name := by
  intro k k' h
  cases k <;> cases k' <;> first | rfl | (revert h; decide)

/-- Members are read one after another, each key but once. -/
theorem setAll?_of_givesKeys (before : List Key) (h : GivesKeys r keys members)
    (hnames : ∀ m ∈ members, ∃ name, Spells m.1 name) (hkeys : (before ++ keys).Nodup) :
    setAll? (before.map Key.name) (r.onKeys before) members =
      some (r.onKeys (keys.reverse ++ before)) := by
  -- `before` are the keys of the members that are read already.
  induction h generalizing before with
  | nil => rfl
  | @known k codes value keys members hcodes hvalue _ ih =>
      have htext : text? codes = some k.name := text?_eq_some_iff.mpr hcodes
      have hknown : Ruleset.keys.contains k.name = true :=
        List.contains_iff_mem.mpr (mem_keys_iff.mpr ⟨k, rfl⟩)
      have hnew : k ∉ before := fun hk =>
        (List.nodup_append.mp hkeys).2.2 k hk k List.mem_cons_self rfl
      have hnot : (before.map Key.name).contains k.name = false := by
        rw [← Bool.not_eq_true, List.contains_iff_mem, List.mem_map_of_injective name_injective]
        exact hnew
      have hrest : ((k :: before) ++ keys).Nodup :=
        (List.perm_middle.nodup_iff).mp hkeys
      have hstep := ih (k :: before) (fun m hm => hnames m (List.mem_cons_of_mem _ hm)) hrest
      rw [setAll?, htext, List.reverse_cons, List.append_assoc]
      simp only [Option.bind_eq_bind, Option.bind_some, hknown, hnot, set?_of_gives hvalue,
        put_onKeys, Bool.not_true, Bool.false_eq_true, if_false]
      exact hstep
  | @unknown codes value keys members hcodes _ ih =>
      obtain ⟨name, hname⟩ := hnames _ List.mem_cons_self
      have htext : text? codes = some (String.ofList name) :=
        text?_eq_some_iff.mpr (String.toList_ofList.symm ▸ hname)
      have hunknown : Ruleset.keys.contains (String.ofList name) = false := by
        rw [← Bool.not_eq_true, List.contains_iff_mem, mem_keys_iff]
        rintro ⟨k, hk⟩
        exact hcodes k (by rwa [hk, String.toList_ofList])
      have hstep := ih before (fun m hm => hnames m (List.mem_cons_of_mem _ hm)) hkeys
      rw [setAll?, htext]
      simp only [Option.bind_eq_bind, Option.bind_some, hunknown, Bool.not_false, if_true]
      exact hstep

/-- A name that is no text makes the members unreadable, also if it is the name of no key. -/
theorem setAll?_eq_none {seen : List String} {s : Ruleset}
    (h : ∃ m ∈ members, text? m.1 = none) : setAll? seen s members = none := by
  induction members generalizing seen s with
  | nil => simp at h
  | cons m members ih =>
      obtain ⟨codes, value⟩ := m
      rw [setAll?]
      cases htext : text? codes with
      | none => rfl
      | some key =>
          have hrest : ∃ m ∈ members, text? m.1 = none := by
            obtain ⟨m, hm, hnone⟩ := h
            rcases List.mem_cons.mp hm with rfl | hm
            · simp [htext] at hnone
            · exact ⟨m, hm, hnone⟩
          simp only [Option.bind_eq_bind, Option.bind_some]
          split
          · exact ih hrest
          · split
            · rfl
            · cases set? s key value with
              | none => rfl
              | some t => exact ih hrest

/-- The tag key can stand in a tag, and no acronym is empty. -/
structure IsValid (r : Ruleset) : Prop where
  tagKey_ne : r.tagKey ≠ ""
  tagKey_chars : ∀ c ∈ r.tagKey.toList, c ≠ ' ' ∧ c ≠ ':' ∧ c ≠ '"'
  acronyms : "" ∉ r.acronyms

theorem validate_eq_ok_iff {s : Ruleset} : r.validate = .ok s ↔ r.IsValid ∧ r = s := by
  unfold validate
  constructor
  · intro h
    split at h
    · cases h
    · rename_i hkey
      split at h
      · cases h
      · rename_i hacronyms
        cases h
        have hkey' : r.tagKey ≠ "" ∧ ∀ c ∈ r.tagKey.toList, c ≠ ' ' ∧ c ≠ ':' ∧ c ≠ '"' := by
          simpa using hkey
        exact ⟨⟨hkey'.1, hkey'.2, by simpa using hacronyms⟩, rfl⟩
  · rintro ⟨⟨hne, hchars, hacronyms⟩, rfl⟩
    rw [if_neg (by simpa using ⟨hne, hchars⟩), if_neg (by simpa using hacronyms)]
    rfl

theorem isValid_of_ofText {text : String} (h : ofText text = .ok r) : r.IsValid := by
  unfold ofText at h
  split at h
  · obtain ⟨hvalid, rfl⟩ := validate_eq_ok_iff.mp h
    exact hvalid
  · cases h

theorem isValid_current : current.IsValid where
  tagKey_ne := by decide
  tagKey_chars := by simp [current]
  acronyms := by decide

theorem isValid_onKeys (h : r.IsValid) (keys : List Key) : (r.onKeys keys).IsValid where
  tagKey_ne := by
    rw [onKeys]
    dsimp only
    split
    · exact h.tagKey_ne
    · exact isValid_current.tagKey_ne
  tagKey_chars := by
    rw [onKeys]
    dsimp only
    split
    · exact h.tagKey_chars
    · exact isValid_current.tagKey_chars
  acronyms := by
    rw [onKeys]
    dsimp only
    split
    · exact h.acronyms
    · exact isValid_current.acronyms

theorem onKeys_nil : r.onKeys [] = current := by
  simp [onKeys]

theorem onKeys_reverse : r.onKeys keys.reverse = r.onKeys keys := by
  simp [onKeys]

theorem ofText_of_writes {text : String} (h : Writes text.toList (.element (.object members))) :
    ofText text =
      match setAll? [] current members with
      | some r => r.validate
      | none => .error .unreadable := by
  rw [ofText, ofText?_of_writes h]
  rfl

/-- An object that gives the values of a ruleset for some keys is loaded as the ruleset that has
these values and for the other keys those of the current ruleset, exactly if the names of all its
members are texts. -/
theorem ofText_of_givesKeys {text : String} (hvalid : r.IsValid) (hkeys : keys.Nodup)
    (hgives : GivesKeys r keys members)
    (htext : Writes text.toList (.element (.object members))) :
    ((∀ m ∈ members, ∃ name, Spells m.1 name) → ofText text = .ok (r.onKeys keys)) ∧
      ((∃ m ∈ members, ∀ name, ¬ Spells m.1 name) → ofText text = .error .unreadable) := by
  rw [ofText_of_writes htext]
  constructor
  · intro hnames
    have hset := setAll?_of_givesKeys [] hgives hnames hkeys
    rw [List.map_nil, List.append_nil, onKeys_nil, onKeys_reverse] at hset
    rw [hset]
    exact validate_eq_ok_iff.mpr ⟨isValid_onKeys hvalid keys, rfl⟩
  · rintro ⟨m, hm, hname⟩
    have hnone : text? m.1 = none := by
      cases h : text? m.1 with
      | none => rfl
      | some name => exact absurd (text?_eq_some_iff.mp h) (hname _)
    rw [setAll?_eq_none ⟨m, hm, hnone⟩]

/-- A value is given with an escape, its key with white space around it, behind a member that is no
key of a ruleset. -/
theorem ofText_of_givesKeys_escaped :
    ofText "\x7b\"x\":[-1.5e3,null], \"tag_key\" : \"\\u0079\"\x7d\n" =
      .ok { current with tagKey := "y" } := by
  obtain ⟨hempty, hspace, hnewline⟩ : IsSpace [] ∧ IsSpace [' '] ∧ IsSpace ['\n'] := by
    simp [IsSpace]
  have hnumber : WritesNumber ['-', '1', '.', '5', 'e', '3'] :=
    @WritesNumber.parts ['-'] ['1'] ['.', '5'] ['e', '3'] (by decide)
      (.digits (by decide) ⟨by simp, by simp⟩) (.point ⟨by simp, by simp⟩)
      (@WritesExponent.mark 'e' [] ['3'] (by simp) (by simp) ⟨by simp, by simp⟩)
  have harray : Writes "[-1.5e3,null]".toList (.element (.array [.number "-1.5e3", .null])) :=
    .element hempty (.array (.items (.element hempty (.number hnumber) hempty)
      (.item (.element hempty .null hempty)))) hempty
  have hx : WritesName "\"x\":".toList ['x'.toNat] :=
    ⟨[], "\"x\"".toList, [], hempty, ⟨['x'], writesCodes_plain (by simp), rfl⟩, hempty, rfl⟩
  have htagKey : WritesName " \"tag_key\" :".toList ("tag_key".toList.map Char.toNat) :=
    ⟨[' '], "\"tag_key\"".toList, [' '], hspace, ⟨_, writesCodes_plain (by simp), rfl⟩, hspace,
      rfl⟩
  have hy : WritesCode "\\u0079".toList 'y'.toNat :=
    @WritesCode.hex [⟨0, false⟩, ⟨0, false⟩, ⟨7, false⟩, ⟨9, false⟩] rfl
  have hvalue : Writes " \"\\u0079\"".toList (.element (.string ['y'.toNat])) :=
    .element hspace (.string ⟨_, .cons hy .nil, rfl⟩) hempty
  have hobject : Writes
      "\x7b\"x\":[-1.5e3,null], \"tag_key\" : \"\\u0079\"\x7d\n".toList _ :=
    .element hempty (.object (.members hx harray (.member htagKey hvalue))) hnewline
  have hunknown (k : Key) : ¬ Spells ['x'.toNat] k.name.toList := fun hk =>
    absurd (text?_eq_some_iff.mpr hk) (by cases k <;> decide)
  have hvalid : { current with tagKey := "y" }.IsValid :=
    ⟨by decide, by simp, isValid_current.acronyms⟩
  have hgives : GivesKeys { current with tagKey := "y" } [.tagKey]
      [(['x'.toNat], .array [.number "-1.5e3", .null]),
        ("tag_key".toList.map Char.toNat, .string ['y'.toNat])] :=
    .unknown hunknown (.known (spells_toNat _) (.tagKey ⟨_, rfl, spells_toNat ['y']⟩) .nil)
  have hnames : ∀ codes ∈ [['x'.toNat], "tag_key".toList.map Char.toNat],
      ∃ name, Spells codes name := by
    simpa using ⟨⟨_, spells_toNat ['x']⟩, ⟨_, spells_toNat "tag_key".toList⟩⟩
  exact (ofText_of_givesKeys hvalid (List.nodup_singleton _) hgives hobject).1
    (by simpa using hnames)

/-- A member that is no key of a ruleset is refused if its name is half a pair of surrogates. -/
theorem not_ofText_of_surrogate :
    ∃ members, GivesKeys current [] members ∧
      Writes "\x7b\"\\ud800\": 1\x7d".toList (.element (.object members)) ∧
      ofText "\x7b\"\\ud800\": 1\x7d" = .error .unreadable := by
  obtain ⟨hempty, hspace⟩ : IsSpace [] ∧ IsSpace [' '] := by
    simp [IsSpace]
  have hcode : WritesCode "\\ud800".toList 0xD800 :=
    @WritesCode.hex [⟨13, false⟩, ⟨8, false⟩, ⟨0, false⟩, ⟨0, false⟩] rfl
  have hname : WritesName "\"\\ud800\":".toList [0xD800] :=
    ⟨[], "\"\\ud800\"".toList, [], hempty, ⟨_, .cons hcode .nil, rfl⟩, hempty, rfl⟩
  have hnumber : WritesNumber ['1'] :=
    @WritesNumber.parts [] ['1'] [] [] (by decide)
      (.digits (by decide) ⟨by simp, by simp⟩) .none .none
  have hobject : Writes "\x7b\"\\ud800\": 1\x7d".toList
      (.element (.object [([0xD800], .number "1")])) :=
    .element hempty (.object (.member hname (.element hspace (.number hnumber) hempty))) hempty
  have hnone : text? [0xD800] = none := by decide
  refine ⟨_, .unknown (fun k hk => ?_) .nil, hobject, ?_⟩
  · rw [text?_eq_some_iff.mpr hk] at hnone
    cases hnone
  · rw [ofText_of_writes hobject, setAll?_eq_none ⟨_, List.mem_singleton_self _, hnone⟩]

end Ruleset

end DeclBridge
