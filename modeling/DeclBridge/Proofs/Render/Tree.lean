import DeclBridge.Proofs.Text.CaseMap
import DeclBridge.Render.Type

/-!
Reading back Rust types. The characters that put a Rust type together stand in none of its names, so
its text shows from which pointers, slices, arrays and maps it was made, at any depth.
-/

namespace DeclBridge

/-- The characters that put Rust types together. -/
def typeMarks : List Char :=
  ['<', '>', '[', ']', ';', ',', ' ']

/-- Whether a text has none of the characters that put Rust types together. -/
def IsUnmarked (cs : List Char) : Prop :=
  ∀ c ∈ cs, c ∉ typeMarks

instance (cs : List Char) : Decidable (IsUnmarked cs) :=
  List.decidableBAll (· ∉ typeMarks) cs

namespace TypeExpr

/-- Whether a type expression is not put together from others. -/
def isLeaf : TypeExpr → Bool
  | named _ | qualified _ _ | dynamic | unsupported _ => true
  | pointer _ | slice _ | array _ _ | map _ _ => false

/-- The names in a type expression. -/
def names : TypeExpr → List String
  | named name => [name]
  | pointer target => target.names
  | slice elem => elem.names
  | array elem length => elem.names ++ length.names
  | map key value => key.names ++ value.names
  | qualified qualifier name => [qualifier, name]
  | dynamic | unsupported _ => []

/-- Whether two type expressions are put together in the same way, from leaves that are alike. -/
inductive SameTree (alike : TypeExpr → TypeExpr → Prop) : TypeExpr → TypeExpr → Prop where
  | leaf {s t : TypeExpr} (hs : s.isLeaf = true) (ht : t.isLeaf = true) (h : alike s t) :
      SameTree alike s t
  | pointer {s t : TypeExpr} (h : SameTree alike s t) : SameTree alike (.pointer s) (.pointer t)
  | slice {s t : TypeExpr} (h : SameTree alike s t) : SameTree alike (.slice s) (.slice t)
  | array {s t m n : TypeExpr} (helem : SameTree alike s t) (hlength : SameTree alike m n) :
      SameTree alike (.array s m) (.array t n)
  | map {s t m n : TypeExpr} (hkey : SameTree alike s t) (hvalue : SameTree alike m n) :
      SameTree alike (.map s m) (.map t n)

/-- The name at the beginning of the Rust type, and the bracket behind it, if the type expression is
put together from others. -/
def opening? : TypeExpr → Option (List Char × Char)
  | pointer _ => some ("Box".toList, '<')
  | slice _ => some ("Vec".toList, '<')
  | array _ _ => some ([], '[')
  | map _ _ => some ("HashMap".toList, '<')
  | named _ | qualified _ _ | dynamic | unsupported _ => none

theorem opening?_of_isLeaf {t : TypeExpr} (h : t.isLeaf = true) : t.opening? = none := by
  cases t <;> first | rfl | cases h

end TypeExpr

theorem isUnmarked_typeName {name : String} (h : IsUnmarked name.toList) :
    IsUnmarked (typeName name).toList := by
  have hmarks : ∀ n ∈ typeMarks.map Char.toNat,
      n < 'A'.toNat ∨ 'Z'.toNat < n ∧ n < 'a'.toNat := by
    decide
  rw [typeName, String.toList_ofList]
  cases hname : name.toList with
  | nil => exact nofun
  | cons c cs =>
      rw [hname] at h
      obtain ⟨hc, hcs⟩ := List.forall_mem_cons.mp h
      intro d hd hmark
      rcases List.mem_append.mp hd with hfirst | hrest
      · apply hc
        rcases hmarks d.toNat (List.mem_map_of_mem hmark) with hlt | ⟨hlt, hgt⟩
        · rwa [← Text.eq_of_mem_upper hlt hfirst]
        · rwa [← Text.eq_of_mem_upper_between hlt hgt hfirst]
      · exact hcs d hrest hmark

theorem unmarked_append_inj {cs ds rest more : List Char} (hcs : IsUnmarked cs)
    (hds : IsUnmarked ds) (hrest : ∀ c ∈ rest.head?, c ∈ typeMarks)
    (hmore : ∀ c ∈ more.head?, c ∈ typeMarks) (h : cs ++ rest = ds ++ more) :
    cs = ds ∧ rest = more := by
  rcases List.append_eq_append_iff.mp h with ⟨xs, rfl, rfl⟩ | ⟨xs, rfl, rfl⟩
  · cases xs with
    | nil => simp
    | cons x xs => exact absurd (hrest x rfl) (hds x (by simp))
  · cases xs with
    | nil => simp
    | cons x xs => exact absurd (hmore x rfl) (hcs x (by simp))

namespace Ruleset

/-- How the text of a Rust type is put together, with boxes for pointers. -/
inductive Prints (r : Ruleset) : TypeExpr → List Char → Prop where
  | leaf {t : TypeExpr} {text : String} (ht : t.isLeaf = true) (h : r.rustType t = .ok text)
      (htext : IsUnmarked text.toList) : Prints r t text.toList
  | pointer {t : TypeExpr} {cs : List Char} (h : Prints r t cs) :
      Prints r (.pointer t) ("Box".toList ++ '<' :: (cs ++ ['>']))
  | slice {t : TypeExpr} {cs : List Char} (h : Prints r t cs) :
      Prints r (.slice t) ("Vec".toList ++ '<' :: (cs ++ ['>']))
  | array {t n : TypeExpr} {cs ds : List Char} (helem : Prints r t cs) (hlength : Prints r n ds) :
      Prints r (.array t n) ([] ++ '[' :: (cs ++ ';' :: ' ' :: (ds ++ [']'])))
  | map {t n : TypeExpr} {cs ds : List Char} (hkey : Prints r t cs) (hvalue : Prints r n ds) :
      Prints r (.map t n) ("HashMap".toList ++ '<' :: (cs ++ ',' :: ' ' :: (ds ++ ['>'])))

variable {r : Ruleset} {s t : TypeExpr} {cs ds rest more : List Char}

theorem isUnmarked_rustName (hdynamic : ∀ type ∈ r.dynamicType, IsUnmarked type.toList)
    {name : String} (h : IsUnmarked name.toList) : IsUnmarked (r.rustName name).toList := by
  rw [rustName]
  split
  · next primitive _ hprimitive =>
    unfold TypeExpr.primitive? at hprimitive
    split at hprimitive <;> cases hprimitive <;> exact by decide
  · next dynamic _ htype =>
    split
    · exact hdynamic dynamic htype
    · exact isUnmarked_typeName h
  · exact isUnmarked_typeName h

theorem isUnmarked_of_isLeaf (hdynamic : ∀ type ∈ r.dynamicType, IsUnmarked type.toList)
    (ht : t.isLeaf = true) (hnames : ∀ name ∈ t.names, IsUnmarked name.toList) {text : String}
    (h : r.rustType t = .ok text) : IsUnmarked text.toList := by
  cases t with
  | named name =>
      cases h
      exact isUnmarked_rustName hdynamic (hnames name (by simp [TypeExpr.names]))
  | qualified qualifier name =>
      rw [rustType] at h
      split at h <;> cases h
      decide
  | dynamic =>
      cases h
      cases htype : r.dynamicType with
      | none => decide
      | some type => exact hdynamic type htype
  | unsupported shape => cases h
  | pointer | slice | array | map => cases ht

theorem prints_of_rustType (hr : r.pointerPolicy = .box)
    (hdynamic : ∀ type ∈ r.dynamicType, IsUnmarked type.toList)
    (hnames : ∀ name ∈ t.names, IsUnmarked name.toList) {text : String}
    (h : r.rustType t = .ok text) : r.Prints t text.toList := by
  induction t generalizing text with
  | named | qualified | dynamic | unsupported =>
      exact .leaf rfl h (isUnmarked_of_isLeaf hdynamic rfl hnames h)
  | pointer target ih =>
      obtain ⟨inner, hinner, h⟩ := bind_eq_ok.mp h
      rw [hr] at h
      cases h
      simpa using Prints.pointer (ih hnames hinner)
  | slice elem ih =>
      obtain ⟨inner, hinner, ⟨⟩⟩ := bind_eq_ok.mp h
      simpa using Prints.slice (ih hnames hinner)
  | array elem length ihElem ihLength =>
      obtain ⟨e, he, h⟩ := bind_eq_ok.mp h
      obtain ⟨l, hl, ⟨⟩⟩ := bind_eq_ok.mp h
      obtain ⟨helem, hlength⟩ := List.forall_mem_append.mp hnames
      simpa using Prints.array (ihElem helem he) (ihLength hlength hl)
  | map key value ihKey ihValue =>
      obtain ⟨k, hk, h⟩ := bind_eq_ok.mp h
      obtain ⟨v, hv, ⟨⟩⟩ := bind_eq_ok.mp h
      obtain ⟨hkey, hvalue⟩ := List.forall_mem_append.mp hnames
      simpa using Prints.map (ihKey hkey hk) (ihValue hvalue hv)

/-- What is put together begins with an unmarked name and a bracket, and a leaf is unmarked. -/
theorem Prints.opening?_cases (h : r.Prints t cs) :
    (∃ name bracket inside, t.opening? = some (name, bracket) ∧ IsUnmarked name ∧
      bracket ∈ ['<', '['] ∧ cs = name ++ bracket :: inside) ∨
      t.opening? = none ∧ IsUnmarked cs := by
  cases h with
  | leaf ht h htext => exact .inr ⟨TypeExpr.opening?_of_isLeaf ht, htext⟩
  | pointer => exact .inl ⟨_, _, _, rfl, by decide, by decide, rfl⟩
  | slice => exact .inl ⟨_, _, _, rfl, by decide, by decide, rfl⟩
  | array => exact .inl ⟨_, _, _, rfl, by decide, by decide, rfl⟩
  | map => exact .inl ⟨_, _, _, rfl, by decide, by decide, rfl⟩

/-- Whether what stands behind a type ends it: nothing, or a mark that opens no type. -/
def EndsType (rest : List Char) : Prop :=
  ∀ c ∈ rest.head?, c ∈ ['>', ']', ';', ',']

theorem EndsType.mem_typeMarks (h : EndsType rest) : ∀ c ∈ rest.head?, c ∈ typeMarks := by
  have hends : ['>', ']', ';', ','] ⊆ typeMarks := by decide
  exact fun c hc => hends (h c hc)

theorem EndsType.not_opening {bracket : Char} (h : EndsType (bracket :: rest)) :
    bracket ∉ ['<', '['] := by
  intro hopening
  have hcases : bracket = '<' ∨ bracket = '[' := by simpa using hopening
  rcases hcases with rfl | rfl <;> exact absurd (h _ rfl) (by decide)

/-- Texts that begin alike belong to types that are put together in the same way, or to leaves. -/
theorem Prints.opening?_eq (hs : r.Prints s cs) (ht : r.Prints t ds) (hrest : EndsType rest)
    (hmore : EndsType more) (h : cs ++ rest = ds ++ more) : s.opening? = t.opening? := by
  have hopens : ['<', '['] ⊆ typeMarks := by decide
  rcases hs.opening?_cases with ⟨name, c, inside, hsopen, hname, hc, rfl⟩ | ⟨hsopen, hcs⟩ <;>
    rcases ht.opening?_cases with ⟨word, d, other, htopen, hword, hd, rfl⟩ | ⟨htopen, hds⟩
  · rw [List.append_assoc, List.append_assoc] at h
    obtain ⟨rfl, hbehind⟩ := unmarked_append_inj hname hword (by simpa using hopens hc)
      (by simpa using hopens hd) h
    obtain ⟨rfl, -⟩ := List.cons.inj hbehind
    rw [hsopen, htopen]
  · rw [List.append_assoc] at h
    obtain ⟨-, rfl⟩ := unmarked_append_inj hname hds (by simpa using hopens hc)
      hmore.mem_typeMarks h
    exact absurd hc hmore.not_opening
  · rw [List.append_assoc] at h
    obtain ⟨-, rfl⟩ := unmarked_append_inj hcs hword hrest.mem_typeMarks
      (by simpa using hopens hd) h
    exact absurd hd hrest.not_opening
  · rw [hsopen, htopen]

theorem endsType_cons {c : Char} (hc : c ∈ ['>', ']', ';', ',']) (rest : List Char) :
    EndsType (c :: rest) := by
  rintro _ ⟨⟩
  exact hc

/-- A printed type is read back from any text that begins with it: the induction is on the first of
two types, and each part of it ends where the same part of the other one ends. -/
theorem Prints.sameTree (hs : r.Prints s cs) (ht : r.Prints t ds) (hrest : EndsType rest)
    (hmore : EndsType more) (h : cs ++ rest = ds ++ more) :
    s.SameTree (fun s t => ∃ text, r.rustType s = .ok text ∧ r.rustType t = .ok text) t ∧
      rest = more := by
  induction hs generalizing t ds rest more with
  | leaf hs hstext hcs =>
      have hopening := (Prints.leaf hs hstext hcs).opening?_eq ht hrest hmore h
      -- A leaf is without an opening, and so is `t` then.
      rw [TypeExpr.opening?_of_isLeaf hs] at hopening
      cases ht with
      | leaf ht httext hds =>
          obtain ⟨htext, hrest⟩ :=
            unmarked_append_inj hcs hds hrest.mem_typeMarks hmore.mem_typeMarks h
          obtain rfl := String.toList_inj.mp htext
          exact ⟨.leaf hs ht ⟨_, hstext, httext⟩, hrest⟩
      | pointer | slice | array | map => cases hopening
  | pointer hs ih =>
      have hopening := hs.pointer.opening?_eq ht hrest hmore h
      cases ht with
      | pointer ht =>
          obtain ⟨htarget, hrest⟩ := ih ht (endsType_cons (c := '>') (by decide) rest)
            (endsType_cons (c := '>') (by decide) more) (by simpa using h)
          exact ⟨.pointer htarget, (List.cons.inj hrest).2⟩
      | leaf ht => cases hopening.trans (TypeExpr.opening?_of_isLeaf ht)
      | slice | array | map => simp [TypeExpr.opening?] at hopening
  | slice hs ih =>
      have hopening := hs.slice.opening?_eq ht hrest hmore h
      cases ht with
      | slice ht =>
          obtain ⟨helem, hrest⟩ := ih ht (endsType_cons (c := '>') (by decide) rest)
            (endsType_cons (c := '>') (by decide) more) (by simpa using h)
          exact ⟨.slice helem, (List.cons.inj hrest).2⟩
      | leaf ht => cases hopening.trans (TypeExpr.opening?_of_isLeaf ht)
      | pointer | array | map => simp [TypeExpr.opening?] at hopening
  | array helem hlength ihElem ihLength =>
      have hopening := (helem.array hlength).opening?_eq ht hrest hmore h
      cases ht with
      | array htelem htlength =>
          obtain ⟨helem, hbehind⟩ := ihElem htelem (endsType_cons (c := ';') (by decide) _)
            (endsType_cons (c := ';') (by decide) _) (by simpa using h)
          obtain ⟨hlength, hrest⟩ := ihLength htlength (endsType_cons (c := ']') (by decide) rest)
            (endsType_cons (c := ']') (by decide) more) (by simpa using hbehind)
          exact ⟨.array helem hlength, (List.cons.inj hrest).2⟩
      | leaf ht => cases hopening.trans (TypeExpr.opening?_of_isLeaf ht)
      | pointer | slice | map => simp [TypeExpr.opening?] at hopening
  | map hkey hvalue ihKey ihValue =>
      have hopening := (hkey.map hvalue).opening?_eq ht hrest hmore h
      cases ht with
      | map htkey htvalue =>
          obtain ⟨hkey, hbehind⟩ := ihKey htkey (endsType_cons (c := ',') (by decide) _)
            (endsType_cons (c := ',') (by decide) _) (by simpa using h)
          obtain ⟨hvalue, hrest⟩ := ihValue htvalue (endsType_cons (c := '>') (by decide) rest)
            (endsType_cons (c := '>') (by decide) more) (by simpa using hbehind)
          exact ⟨.map hkey hvalue, (List.cons.inj hrest).2⟩
      | leaf ht => cases hopening.trans (TypeExpr.opening?_of_isLeaf ht)
      | pointer | slice | array => simp [TypeExpr.opening?] at hopening

/-- Type expressions with one Rust type, boxes for pointers, are put together in the same way from
leaves that have one Rust type each. -/
theorem sameTree_of_rustType (hr : r.pointerPolicy = .box)
    (hdynamic : ∀ type ∈ r.dynamicType, IsUnmarked type.toList)
    (hsnames : ∀ name ∈ s.names, IsUnmarked name.toList)
    (htnames : ∀ name ∈ t.names, IsUnmarked name.toList) {text : String}
    (hs : r.rustType s = .ok text) (ht : r.rustType t = .ok text) :
    s.SameTree (fun s t => ∃ text, r.rustType s = .ok text ∧ r.rustType t = .ok text) t := by
  have hsprints := prints_of_rustType hr hdynamic hsnames hs
  have htprints := prints_of_rustType hr hdynamic htnames ht
  have hnothing : EndsType [] := nofun
  exact (hsprints.sameTree htprints hnothing hnothing rfl).1

/-- Leaves that are named like boxes and vectors do not hide what is put together. -/
theorem sameTree_of_rustType_leaves :
    let s : TypeExpr := .map (.array (.named "int") (.pointer (.named "vec"))) (.slice .dynamic)
    let t : TypeExpr :=
      .map (.array (.named "rune") (.pointer (.named "Vec"))) (.slice (.named "any"))
    current.rustType s = .ok "HashMap<[i32; Box<Vec>], Vec<serde_json::Value>>" ∧
      s.SameTree (fun s t => ∃ text, current.rustType s = .ok text ∧ current.rustType t = .ok text)
        t := by
  intro s t
  have hs : current.rustType s = .ok "HashMap<[i32; Box<Vec>], Vec<serde_json::Value>>" :=
    eq_ok_of_toOption (by decide +kernel)
  have ht : current.rustType t = .ok "HashMap<[i32; Box<Vec>], Vec<serde_json::Value>>" :=
    eq_ok_of_toOption (by decide +kernel)
  exact ⟨hs, sameTree_of_rustType rfl (by decide) (by decide) (by decide) hs ht⟩

end Ruleset

end DeclBridge
