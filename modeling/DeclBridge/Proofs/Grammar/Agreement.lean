import DeclBridge.Proofs.Grammar.Shedding

/-!
What is declared with and without some comments. If fields and declarations are read from tokens and
from what is left of them without comments that part nothing, the same ones are declared.
-/

namespace DeclBridge

namespace Token

/-- The tokens from the first one on that is neither a comment nor a semicolon. -/
def fromCode (ts : List Token) : List Token :=
  ts.dropWhile (!·.kind.isCode)

variable {f : Form} {p q : Kind → Bool} {t : Token} {ts us : List Token}

theorem fromCode_cons (h : t.kind.isCode = true) : fromCode (t :: ts) = t :: ts := by
  simp [fromCode, h]

theorem fromCode_skip (h : t.kind.isCode = false) : fromCode (t :: ts) = fromCode ts := by
  simp [fromCode, h]

theorem isCode_of_isComment (h : t.kind.isComment = true) : t.kind.isCode = false := by
  cases hkind : t.kind <;> simp_all [Kind.isComment, Kind.isCode]

theorem Sheds.fromCode (h : Sheds f ts us) : ∃ g, Sheds g (fromCode ts) (fromCode us) := by
  induction h with
  | nil => exact ⟨f, .nil⟩
  | @keep f t u ts us hu h ih =>
      cases ht : t.kind.isCode with
      | true =>
          rw [fromCode_cons ht, fromCode_cons (by rw [hu, ht])]
          exact ⟨f, .keep hu h⟩
      | false =>
          rw [fromCode_skip ht, fromCode_skip (by rw [hu, ht])]
          exact ih
  | drop ht _ _ ih =>
      rw [fromCode_skip (isCode_of_isComment ht)]
      exact ih

/-- The first token that is neither a comment nor a semicolon satisfies `p`. -/
def Starts (p : Kind → Bool) (ts : List Token) : Prop :=
  (fromCode ts).head?.all (p ·.kind) = true

theorem starts_skip (h : t.kind.isCode = false) : Starts p (t :: ts) ↔ Starts p ts := by
  rw [Starts, Starts, fromCode_skip h]

theorem starts_cons (h : p t.kind = true) (ht : t.kind.isCode = true) : Starts p (t :: ts) := by
  simp [Starts, fromCode_cons ht, h]

theorem Starts.mono (h : Starts p ts) (hpq : ∀ kind, p kind = true → q kind = true) :
    Starts q ts := by
  unfold Starts at h ⊢
  cases hts : (Token.fromCode ts).head? with
  | none => rfl
  | some t =>
      rw [hts, Option.all_some] at h
      exact hpq _ h

theorem isCode_of_fromCode (h : fromCode ts = t :: us) : t.kind.isCode = true := by
  have hhead := List.head?_dropWhile_not (fun t : Token => !t.kind.isCode) ts
  rw [← fromCode, h] at hhead
  simpa using hhead

/-- What is left begins with a comment, with a semicolon, or with a token that satisfies `p`. -/
theorem Starts.head (h : Starts p ts) (hts : Sheds f ts (t :: us)) :
    t.kind.isCode = false ∨ p t.kind = true := by
  cases ht : t.kind.isCode with
  | false => exact .inl rfl
  | true =>
      right
      obtain ⟨g, hcode⟩ := hts.fromCode
      rw [fromCode_cons ht] at hcode
      unfold Starts at h
      cases hts : Token.fromCode ts with
      | nil =>
          rw [hts] at hcode
          cases hcode
      | cons v vs =>
          rw [hts] at h hcode
          have hv : v.kind.isComment = false := by
            have hcode := isCode_of_fromCode hts
            cases hkind : v.kind <;> simp_all [Kind.isCode, Kind.isComment]
          obtain ⟨_, _, ⟨⟩, hu, -⟩ := hcode.uncons hv
          rw [hu]
          simpa using h

end Token

open Token (Sheds Starts fromCode)

namespace TypeExpr

open Cursor

variable {ts : List Token} {c c' d d' : Cursor}

/-- Whether a token may stand behind the comments that follow a type. Those that begin a result but
neither a field nor a declaration may not. -/
def followsType : Token.Kind → Bool
  | .identifier _ | .star | .keyword .func => true
  | kind => !beginsResult kind

theorem stops_of_starts (h : Starts followsType ts) : Stops ts := by
  intro bracket us hts
  rcases hts.head with hhead | ⟨⟨t, vs, rfl, ht⟩, hparts⟩
  · cases hts : ts.head? <;> cases hus : us.head? <;> simp_all
  · have hcomment : beginsResult t.kind = false := by
      cases hkind : t.kind <;> simp_all [Token.Kind.isComment, beginsResult]
    cases us with
    | nil => simp [hcomment]
    | cons u us =>
        have hu : beginsResult u.kind = false := by
          rcases h.head hts with hu | hu
          · cases hkind : u.kind <;> simp_all [Token.Kind.isCode, beginsResult]
          · rw [Token.Form.ofHead_cons] at hparts
            unfold followsType at hu
            split at hu <;> simp_all [Token.Form.ofKind, Token.Form.parts]
        simp [hcomment, hu]

theorem ReadsMember.unique {name : String} {type type' : TypeExpr} (h : ReadsMember name c type d)
    (h' : ReadsMember name c type' d') : type = type' ∧ d = d' := by
  cases h with
  | alone hdot =>
      cases h' with
      | alone => exact ⟨rfl, rfl⟩
      | member ht => simp [ht] at hdot
  | member ht hu =>
      cases h' with
      | alone hdot => simp [ht] at hdot
      | member _ hu' =>
          rw [hu] at hu'
          cases hu'
          exact ⟨rfl, rfl⟩

end TypeExpr

namespace Field

open Cursor TypeExpr

variable {f f' : Field} {g : Token.Form} {ts us : List Token} {c c' d d' : Cursor}

/-- The field without its comments. -/
def bare (f : Field) : Field :=
  { f with doc := [] }

/-- Whether a token begins a field or ends the struct. -/
def beginsField : Token.Kind → Bool
  | .star | .identifier _ | .closing .curly => true
  | _ => false

theorem followsType_of_beginsField {kind : Token.Kind} (h : beginsField kind = true) :
    followsType kind = true := by
  unfold beginsField at h
  split at h <;> simp_all [followsType, beginsResult]

theorem stops_of_readsEnd {names : List String} {type : TypeExpr} (h : ReadsEnd names type c f d)
    (hstarts : Starts beginsField d.rest) : Stops c.rest := by
  cases h with
  | tagged ht => exact stops_of_head (by rw [ht]; rfl)
  | plain => exact stops_of_starts (hstarts.mono fun _ => followsType_of_beginsField)

theorem readsEnd_sheds {names : List String} {type : TypeExpr} (h : ReadsEnd names type c f d)
    (h' : ReadsEnd names type c' f' d') (hc : Sheds g c.rest c'.rest)
    (hstarts : Starts beginsField d.rest) : f = f' ∧ ∃ g', Sheds g' d.rest d'.rest := by
  cases h with
  | @tagged line t us text ht =>
      obtain ⟨u, vs, hrest, hu, hus⟩ := hc.uncons (by rw [ht]; rfl)
      cases h' with
      | tagged ht' =>
          cases hrest
          rw [hu, ht] at ht'
          cases ht'
          exact ⟨rfl, _, hus⟩
      | plain hend => simp [hrest, hu, ht, endsField] at hend
  | plain hend =>
      cases h' with
      | @tagged line t us text ht =>
          -- Behind a comment no string comes first: a field begins there, or the struct ends.
          rcases hc.head with hhead | -
          · cases hrest : c.rest with
            | nil => simp [hrest] at hhead
            | cons v vs =>
                simp only [hrest, List.head?_cons, Option.map_some, Option.some.injEq] at hhead
                simp [hrest, ← hhead, ht, endsField] at hend
          · rcases hstarts.head hc with hnot | hnot <;>
              simp [ht, Token.Kind.isCode, beginsField] at hnot
      | plain => exact ⟨rfl, g, hc⟩

theorem ReadsNames.unique {names names' : List String} (h : ReadsNames c names d)
    (h' : ReadsNames c names' d') : names = names' ∧ d = d' := by
  induction h generalizing names' with
  | nil hcomma =>
      cases h' with
      | nil => exact ⟨rfl, rfl⟩
      | cons ht => simp [ht] at hcomma
  | cons ht hu _ ih =>
      cases h' with
      | nil hcomma => simp [ht] at hcomma
      | cons _ hu' h' =>
          rw [hu] at hu'
          cases hu'
          obtain ⟨rfl, rfl⟩ := ih h'
          exact ⟨rfl, rfl⟩

theorem readsNames_sheds {names : List String} {type : TypeExpr} {e : Cursor} (line : Nat)
    (h : ReadsNames c names d) (hr : TypeExpr.Reads d.rest type e) (hc : Sheds g c.rest us) :
    ∃ d' g', ReadsNames ⟨line, us⟩ names d' ∧ Sheds g' d.rest d'.rest := by
  induction h generalizing line us g with
  | nil hcomma =>
      have hcomma' := (any_head?_keep hc (isComment_of_reads hr)
        fun kind => decide (kind = .comma)).trans hcomma
      exact ⟨_, g, .nil hcomma', hc⟩
  | cons ht hu _ ih =>
      obtain ⟨t', us', rfl, ht', hc⟩ := hc.uncons (by rw [ht]; rfl)
      obtain ⟨u', vs', rfl, hu', hc⟩ := hc.uncons (by rw [hu]; rfl)
      obtain ⟨d', g', hd', hdd'⟩ := ih u'.line hr hc
      exact ⟨d', g', .cons (ht'.trans ht) (hu'.trans hu) hd', hdd'⟩

/-- Behind an embedded field no token is left that makes the name the one of another type. -/
theorem endsEmbedded_of_sheds {first : String} {line : Nat}
    (he : ReadsEnd [] (.named first) ⟨line, ts⟩ f c)
    (hend : ts.head?.any (endsEmbedded ·.kind) = true) (hts : Sheds .name ts us)
    (hstarts : Starts beginsField c.rest) (hus : us ≠ []) :
    us.head?.any (endsEmbedded ·.kind) = true := by
  rcases hts.head with hhead | ⟨⟨t, vs, rfl, ht⟩, hparts⟩
  · cases hts : ts.head? <;> cases hus : us.head? <;> simp_all
  · cases us with
    | nil => exact absurd rfl hus
    | cons u us =>
        have hrest : c.rest = t :: vs := by
          cases he with
          | tagged hstring => simp [hstring, Token.Kind.isComment] at ht
          | plain => rfl
        rw [hrest] at hstarts
        rw [Token.Form.ofHead_cons] at hparts
        rw [List.head?_cons, Option.any_some]
        rcases hstarts.head hts with hu | hu
        · cases hkind : u.kind <;> simp_all [Token.Kind.isCode, endsEmbedded]
        · unfold beginsField at hu
          split at hu <;> simp_all [Token.Form.ofKind, Token.Form.parts, endsEmbedded]

theorem isComment_of_endsEmbedded (h : ts.head?.any (endsEmbedded ·.kind) = false) :
    ts.head?.any (·.kind.isComment) = false := by
  cases ts with
  | nil => rfl
  | cons t ts => cases hkind : t.kind <;> simp_all [endsEmbedded, Token.Kind.isComment]

/-- A field that is read with the comments and without them is the same field. -/
theorem reads_sheds (h : Reads ts f c) (h' : Reads us f' c') (hts : Sheds g ts us)
    (hstarts : Starts beginsField c.rest) : f = f' ∧ ∃ g', Sheds g' c.rest c'.rest := by
  cases h with
  | pointer hstar hr he =>
      have hstar' := nextIs_of_sheds hts hstar rfl
      obtain ⟨e, g', hr', hce⟩ := TypeExpr.reads_sheds hr hts (stops_of_readsEnd he hstarts)
      cases h' with
      | pointer _ hr'' he' =>
          obtain ⟨rfl, rfl⟩ := hr'.unique hr''
          exact readsEnd_sheds he he' hce hstarts
      | qualified ht | embedded ht | named ht => simp [ht] at hstar'
  | qualified ht hdot hm he =>
      obtain ⟨u, vs, rfl, hu, hts⟩ := hts.uncons (by rw [ht]; rfl)
      rw [ht] at hts
      have hdot' := nextIs_of_sheds hts hdot rfl
      obtain ⟨e, hm', hce⟩ := readsMember_sheds u.line hm hts
      cases h' with
      | pointer hstar => simp [hu, ht] at hstar
      | qualified ht' _ hm'' he' =>
          rw [hu, ht] at ht'
          cases ht'
          obtain ⟨rfl, rfl⟩ := hm'.unique hm''
          exact readsEnd_sheds he he' hce hstarts
      | embedded _ hnot | named _ hnot => simp [hdot'] at hnot
  | embedded ht hdot hend he =>
      obtain ⟨u, vs, rfl, hu, hts⟩ := hts.uncons (by rw [ht]; rfl)
      rw [ht] at hts
      have hdot' := (nextIs_sheds hts rfl rfl).trans hdot
      cases h' with
      | pointer hstar => simp [hu, ht] at hstar
      | qualified _ hnot => simp [hdot'] at hnot
      | embedded ht' _ _ he' =>
          rw [hu, ht] at ht'
          cases ht'
          exact readsEnd_sheds he he' hts hstarts
      | named _ _ hnot hn hr =>
          have hvs : vs ≠ [] := by
            rintro rfl
            cases hn
            cases hr
          simp [endsEmbedded_of_sheds he hend hts hstarts hvs] at hnot
  | named ht hdot hend hn hr he =>
      obtain ⟨u, vs, rfl, hu, hts⟩ := hts.uncons (by rw [ht]; rfl)
      have hkeep := any_head?_keep hts (isComment_of_endsEmbedded hend)
      cases h' with
      | pointer hstar => simp [hu, ht] at hstar
      | qualified _ hnot =>
          have hdot' := (hkeep fun kind => decide (kind = .dot)).symm.trans hnot
          exact absurd (hdot.symm.trans hdot') Bool.false_ne_true
      | embedded _ _ hnot =>
          have hend' := (hkeep endsEmbedded).symm.trans hnot
          exact absurd (hend.symm.trans hend') Bool.false_ne_true
      | named ht' _ _ hn' hr' he' =>
          rw [hu, ht] at ht'
          cases ht'
          obtain ⟨e, _, hn'', hce⟩ := readsNames_sheds u.line hn hr hts
          obtain ⟨rfl, rfl⟩ := hn''.unique hn'
          obtain ⟨_, _, hr'', hcd⟩ :=
            TypeExpr.reads_sheds hr hce (stops_of_readsEnd he hstarts)
          obtain ⟨rfl, rfl⟩ := hr''.unique hr'
          exact readsEnd_sheds he he' hcd hstarts

theorem starts_of_readsAll {lastLine : Nat} {doc : List Comment} {fields : List Field}
    (h : ReadsAll lastLine doc ts fields c) : Starts beginsField ts := by
  induction h with
  | semicolon ht _ ih => exact (Token.starts_skip (by rw [ht]; rfl)).mpr ih
  | comment ht _ ih => exact (Token.starts_skip (by rw [ht]; rfl)).mpr ih
  | close ht => exact Token.starts_cons (by rw [ht]; rfl) (by rw [ht]; rfl)
  | field hf =>
      obtain ⟨t, us, rfl, ht | ⟨name, ht⟩⟩ := head_of_reads hf
      all_goals exact Token.starts_cons (by rw [ht]; rfl) (by rw [ht]; rfl)

theorem fromCode_of_reads (h : Reads ts f c) : fromCode ts = ts := by
  obtain ⟨t, us, rfl, ht | ⟨name, ht⟩⟩ := head_of_reads h
  all_goals exact Token.fromCode_cons (by rw [ht]; rfl)

theorem head_of_sheds {u : Token} (h : Reads ts f c) (hts : Sheds g ts (u :: us)) :
    u.kind = .star ∨ ∃ name, u.kind = .identifier name := by
  obtain ⟨t, vs, rfl, ht⟩ := head_of_reads h
  have hcomment : t.kind.isComment = false := by
    rcases ht with ht | ⟨name, ht⟩ <;> rw [ht] <;> rfl
  obtain ⟨_, _, ⟨⟩, hu, -⟩ := hts.uncons hcomment
  rwa [hu]

theorem readsAll_fromCode {lastLine : Nat} {doc : List Comment} {fields : List Field}
    (h : ReadsAll lastLine doc ts fields c) :
    ∃ doc', ReadsAll lastLine doc' (fromCode ts) fields c := by
  induction h with
  | semicolon ht _ ih | comment ht _ ih =>
      rw [Token.fromCode_skip (by rw [ht]; rfl)]
      exact ih
  | close ht =>
      rw [Token.fromCode_cons (by rw [ht]; rfl)]
      exact ⟨[], .close ht⟩
  | @field _ doc _ _ _ _ _ hf h =>
      rw [fromCode_of_reads hf]
      exact ⟨doc, .field hf h⟩

/-- Two structs with the same code have the same fields. -/
theorem readsAll_sheds {lastLine lastLine' : Nat} {doc doc' : List Comment}
    {fields fields' : List Field} (h : ReadsAll lastLine doc ts fields c)
    (h' : ReadsAll lastLine' doc' us fields' c') (hts : Sheds g (fromCode ts) (fromCode us)) :
    fields.map bare = fields'.map bare ∧ ∃ g', Sheds g' c.rest c'.rest := by
  -- The other struct is read from its first code on, which is the first code of this one.
  induction h generalizing us lastLine' doc' fields' g with
  | semicolon ht _ ih | comment ht _ ih =>
      rw [Token.fromCode_skip (by rw [ht]; rfl)] at hts
      exact ih h' hts
  | close ht =>
      rw [Token.fromCode_cons (by rw [ht]; rfl)] at hts
      obtain ⟨u, vs, hus, hu, hts⟩ := hts.uncons (by rw [ht]; rfl)
      obtain ⟨_, hall⟩ := readsAll_fromCode h'
      rw [hus] at hall
      cases hall with
      | semicolon hu' | comment hu' => simp [hu, ht] at hu'
      | close => exact ⟨rfl, _, hts⟩
      | field hf =>
          obtain ⟨_, _, ⟨⟩, hu' | ⟨_, hu'⟩⟩ := head_of_reads hf
          all_goals simp [hu, ht] at hu'
  | field hf h ih =>
      rw [fromCode_of_reads hf] at hts
      obtain ⟨_, hall⟩ := readsAll_fromCode h'
      generalize fromCode us = vs at hall hts
      cases hall with
      | semicolon hu | comment hu | close hu =>
          rcases head_of_sheds hf hts with hu' | ⟨_, hu'⟩ <;> simp [hu] at hu'
      | field hf' hall =>
          obtain ⟨rfl, _, hrest⟩ := reads_sheds hf hf' hts (starts_of_readsAll h)
          obtain ⟨_, hcode⟩ := hrest.fromCode
          obtain ⟨hfields, hmore⟩ := ih hall hcode
          exact ⟨by simp [bare, hfields], hmore⟩

end Field

namespace Decl

open Cursor TypeExpr
open Token (Form)

variable {g : Form} {t u : Token} {ts us : List Token} {c c' d d' : Cursor}

/-- Whether a name and a comma come first. -/
def namesParameter : List Token → Bool
  | v :: w :: _ =>
      match v.kind, w.kind with
      | .identifier _, .comma => true
      | _, _ => false
  | _ => false

/-- Whether a constraint of the parameter before it comes first, or more parameters do. -/
def constrains : List Token → Bool
  | [] => false
  | u :: us =>
      match u.kind with
      | .identifier _ | .opening .square | .comma => true
      | .keyword word => [.interface, .map, .chan, .func].contains word
      | .operator text => text == "~"
      | .star => namesParameter us
      | _ => false

theorem hasParameters_name {name : String} (v : Token) (ht : t.kind = .identifier name) :
    hasParameters (v :: t :: ts) = constrains ts := by
  obtain _ | ⟨u, _ | ⟨w, _ | ⟨x, xs⟩⟩⟩ := ts
  · rfl
  all_goals
    simp only [hasParameters, constrains, namesParameter, ht]
    grind

theorem hasParameters_other (v : Token) (h : Form.ofHead ts ≠ .name) :
    hasParameters (v :: ts) = false := by
  obtain _ | ⟨t, _ | ⟨u, us⟩⟩ := ts
  · rfl
  · rfl
  · rw [Form.ofHead_cons, ne_eq, Form.ofKind_eq_name] at h
    unfold hasParameters
    cases ht : t.kind <;> simp_all

theorem namesParameter_name {name : String} (ht : t.kind = .identifier name) :
    namesParameter (t :: ts) = nextIs .comma ts := by
  cases ts with
  | nil => rfl
  | cons u us =>
      simp only [namesParameter, ht, nextIs_cons]
      cases u.kind <;> simp

theorem namesParameter_other (h : Form.ofHead ts ≠ .name) : namesParameter ts = false := by
  obtain _ | ⟨t, _ | ⟨u, us⟩⟩ := ts
  · rfl
  · rfl
  · rw [Form.ofHead_cons, ne_eq, Form.ofKind_eq_name] at h
    unfold namesParameter
    cases ht : t.kind <;> simp_all

theorem ofHead_sheds (h : Sheds g ts us) (hg : g.parts .name = true) :
    Form.ofHead us = .name ↔ Form.ofHead ts = .name := by
  cases h with
  | nil => rfl
  | keep hu => rw [Form.ofHead_cons, Form.ofHead_cons, hu]
  | @drop _ t ts _ ht hparts =>
      constructor
      · intro hus
        simp [hus, hg] at hparts
      · intro hts
        obtain ⟨text, hts⟩ := Form.ofKind_eq_name.mp hts
        simp [hts, Token.Kind.isComment] at ht

theorem namesParameter_sheds (h : Sheds .star ts us) : namesParameter us = namesParameter ts := by
  by_cases hname : Form.ofHead ts = .name
  · obtain _ | ⟨t, ts⟩ := ts
    · cases hname
    · obtain ⟨name, ht⟩ := Form.ofKind_eq_name.mp hname
      obtain ⟨u, us, rfl, hu, h⟩ := h.uncons (by rw [ht]; rfl)
      rw [ht] at h
      rw [namesParameter_name ht, namesParameter_name (hu.trans ht), nextIs_sheds h rfl rfl]
  · rw [namesParameter_other hname, namesParameter_other (mt (ofHead_sheds h rfl).mp hname)]

theorem constrains_of_parts (h : Form.parts .name (.ofHead us) = false) :
    constrains us = false := by
  cases us with
  | nil => rfl
  | cons u us =>
      rw [Form.ofHead_cons] at h
      unfold constrains
      cases hu : u.kind with
      | opening bracket => cases bracket <;> simp_all [Form.ofKind, Form.parts]
      | keyword word => cases word <;> simp_all [Form.ofKind, Form.parts]
      | operator text =>
          rw [hu, Form.ofKind] at h
          split at h <;> simp_all [Form.parts]
      | _ => simp_all [Form.ofKind, Form.parts]

theorem constrains_sheds (h : Sheds .name ts us) : constrains us = constrains ts := by
  cases h with
  | nil => rfl
  | @keep _ t u ts us hu h =>
      rw [constrains, constrains, hu]
      cases ht : t.kind with
      | star =>
          rw [ht] at h
          exact namesParameter_sheds h
      | opening bracket => cases bracket <;> rfl
      | _ => rfl
  | @drop _ t ts us ht hparts h =>
      rw [constrains_of_parts hparts]
      cases hkind : t.kind <;> simp_all [constrains, Token.Kind.isComment]

theorem hasParameters_sheds (v w : Token) (h : Sheds (.opening .square) ts us) :
    hasParameters (w :: us) = hasParameters (v :: ts) := by
  by_cases hname : Form.ofHead ts = .name
  · obtain _ | ⟨t, ts⟩ := ts
    · cases hname
    · obtain ⟨name, ht⟩ := Form.ofKind_eq_name.mp hname
      obtain ⟨u, us, rfl, hu, h⟩ := h.uncons (by rw [ht]; rfl)
      rw [ht] at h
      rw [hasParameters_name v ht, hasParameters_name w (hu.trans ht), constrains_sheds h]
  · rw [hasParameters_other v hname, hasParameters_other w (mt (ofHead_sheds h rfl).mp hname)]

/-- What follows a skipped declaration is what is left of what followed it. -/
theorem afterDeclaration_sheds {depth : Nat} (line line' : Nat) (h : Sheds g ts us) :
    ∃ g', Sheds g' (afterDeclaration line depth ts).rest (afterDeclaration line' depth us).rest := by
  induction h generalizing line line' depth with
  | nil => exact ⟨.other, .nil⟩
  | @keep g t u ts us hu h ih =>
      rcases t.kind.bracket_cases with ⟨bracket, ht⟩ | ⟨bracket, ht⟩ | ht
      · rw [afterDeclaration_opening ht, afterDeclaration_opening (hu.trans ht)]
        exact ih _ _
      · cases depth with
        | zero =>
            rw [afterDeclaration_close ht, afterDeclaration_close (hu.trans ht)]
            exact ⟨g, .keep hu h⟩
        | succ depth =>
            rw [afterDeclaration_closing ht, afterDeclaration_closing (hu.trans ht)]
            exact ih _ _
      · by_cases hend : t.kind = .semicolon ∧ depth = 0
        · obtain ⟨ht, rfl⟩ := hend
          rw [afterDeclaration_semicolon ht, afterDeclaration_semicolon (hu.trans ht)]
          exact ⟨_, h⟩
        · have hend : t.kind ≠ .semicolon ∨ depth ≠ 0 := Decidable.not_and_iff_or_not.mp hend
          rw [afterDeclaration_other ht hend, afterDeclaration_other (by rwa [hu]) (by rwa [hu])]
          exact ih _ _
  | @drop _ t _ _ ht _ _ ih =>
      -- A comment opens and closes no group and ends no declaration.
      have hother : t.kind.isBracket = false ∧ t.kind ≠ .semicolon := by
        cases hkind : t.kind <;> simp_all [Token.Kind.isComment, Token.Kind.isBracket]
      rw [afterDeclaration_other hother.1 (.inl hother.2)]
      exact ih _ _

theorem dropAssign_sheds (h : Sheds g ts us) (hts : ts.head?.any (·.kind.isComment) = false) :
    ∃ g', Sheds g' (dropAssign ts) (dropAssign us) := by
  cases ts with
  | nil =>
      cases h
      exact ⟨g, .nil⟩
  | cons t ts =>
      obtain ⟨u, us, rfl, hu, h'⟩ := h.uncons (by simpa using hts)
      rw [dropAssign, dropAssign, hu]
      split
      · exact ⟨_, h'⟩
      · exact ⟨g, h⟩

/-- The declaration without its place and its comments. -/
def bare : Decl → Decl
  | .record r =>
      .record { r with line := 0, fields := r.fields.map Field.bare, comments := [], trailing := none }
  | .alias a => .alias { a with line := 0, comments := [], trailing := none }

@[simp]
theorem bare_withTrailing (trailing : Option Comment) (d : Decl) :
    (d.withTrailing trailing).bare = d.bare := by
  cases d <;> rfl

theorem isComment_of_readsBody {name : String} {line : Nat} {d : Decl}
    (h : ReadsBody name line ts d c) : ts.head?.any (·.kind.isComment) = false := by
  cases h with
  | record ht => simp [ht, Token.Kind.isComment]
  | type _ hr => exact isComment_of_reads hr

/-- A type name that is read with the comments and without them stands for the same. -/
theorem readsBody_sheds {name : String} {line line' : Nat} {d d' : Decl}
    (h : ReadsBody name line ts d c) (h' : ReadsBody name line' us d' c') (hts : Sheds g ts us)
    (hstops : Stops c.rest) : d.bare = d'.bare ∧ ∃ g', Sheds g' c.rest c'.rest := by
  have hkeep := any_head?_keep hts (isComment_of_readsBody h)
    fun kind => decide (kind = .keyword .struct)
  cases h with
  | record ht hu hf =>
      obtain ⟨t', us', rfl, ht', hts⟩ := hts.uncons (by rw [ht]; rfl)
      obtain ⟨u', vs', rfl, hu', hts⟩ := hts.uncons (by rw [hu]; rfl)
      cases h' with
      | record _ _ hf' =>
          obtain ⟨_, hcode⟩ := hts.fromCode
          obtain ⟨hfields, hrest⟩ := Field.readsAll_sheds hf hf' hcode
          exact ⟨by simp [bare, hfields], hrest⟩
      | type hnot => simp [ht', ht] at hnot
  | type hnot hr =>
      cases h' with
      | record ht' => simp_all [nextIs]
      | type _ hr' =>
          obtain ⟨_, g', hr'', hrest⟩ := reads_sheds hr hts hstops
          obtain ⟨rfl, rfl⟩ := hr''.unique hr'
          exact ⟨rfl, g', hrest⟩

theorem fromCode_trailing (c : Cursor) : fromCode (trailing c).2.rest = fromCode c.rest := by
  have hdrop : fromCode (dropLineEnd c.rest) = fromCode c.rest := by
    cases hrest : c.rest with
    | nil => rfl
    | cons t ts =>
        rw [dropLineEnd]
        split
        · rename_i ht
          rw [Token.fromCode_skip]
          simp only [Token.isLineEnd, Bool.and_eq_true, beq_iff_eq] at ht
          rw [ht.1]
          rfl
        · rfl
  unfold trailing
  split
  · rename_i comment d h
    obtain ⟨t, us, text, hts, ht, -, -, rfl⟩ := commentOn?_eq_some.mp h
    rw [← hdrop, hts, Token.fromCode_skip (by rw [ht]; rfl)]
  · rfl

theorem parameters_sheds (h : Sheds g ts us) (hts : ts.head?.any (·.kind.isComment) = false) :
    (nextIs (.opening .square) us && hasParameters us) =
      (nextIs (.opening .square) ts && hasParameters ts) := by
  cases ts with
  | nil =>
      cases h
      rfl
  | cons t ts =>
      obtain ⟨u, us, rfl, hu, h⟩ := h.uncons (by simpa using hts)
      rw [nextIs_cons, nextIs_cons, hu]
      by_cases ht : t.kind = .opening .square
      · rw [ht] at h
        rw [hasParameters_sheds t u h]
      · simp [ht]

theorem isComment_of_dropAssign (h : (dropAssign ts).head?.any (·.kind.isComment) = false) :
    ts.head?.any (·.kind.isComment) = false := by
  cases ts with
  | nil => rfl
  | cons t ts =>
      rw [dropAssign] at h
      split at h
      · rename_i ht
        simp [ht, Token.Kind.isComment]
      · exact h

end Decl

/-- The type declarations among the nodes, without their places and their comments. -/
def Node.declared (nodes : List Node) : List Decl :=
  nodes.filterMap fun
    | .decl d => some d.bare
    | _ => none

theorem Node.declared_append (nodes more : List Node) :
    declared (nodes ++ more) = declared nodes ++ declared more :=
  List.filterMap_append

theorem Node.declared_cons (node : Node) (nodes : List Node) :
    declared (node :: nodes) = declared [node] ++ declared nodes :=
  declared_append [node] nodes

namespace Decl

open Cursor TypeExpr
open Token (Form)

variable {g : Form} {t u : Token} {ts us : List Token} {c c' d d' : Cursor} {node node' : Node}
  {nodes nodes' : List Node}

/-- A specification that is read with the comments and without them declares the same. -/
theorem readsSpec_sheds {line line' : Nat} (h : ReadsSpec line ts node c)
    (h' : ReadsSpec line' us node' c') (hts : Sheds g ts us) (hstarts : Starts followsType c.rest) :
    Node.declared [node] = Node.declared [node'] ∧
      ∃ g', Sheds g' (fromCode c.rest) (fromCode c'.rest) := by
  cases h with
  | generic ht hgeneric =>
      obtain ⟨u, vs, rfl, hu, hts⟩ := hts.uncons (by rw [ht]; rfl)
      cases h' with
      | generic =>
          obtain ⟨_, hrest⟩ := afterDeclaration_sheds _ u.line hts
          exact ⟨rfl, hrest.fromCode⟩
      | decl _ hnot =>
          rw [Bool.and_eq_true] at hgeneric
          obtain ⟨v, _, rfl, hv⟩ := nextIs_iff.mp hgeneric.1
          rw [parameters_sheds hts (by simp [hv, Token.Kind.isComment])] at hnot
          simp [hgeneric] at hnot
  | decl ht hgeneric hb =>
      obtain ⟨u, vs, rfl, hu, hts⟩ := hts.uncons (by rw [ht]; rfl)
      have hcomment := isComment_of_dropAssign (isComment_of_readsBody hb)
      have hparameters := parameters_sheds hts hcomment
      cases h' with
      | generic _ hnot => exact absurd (hgeneric.symm.trans (hparameters.symm.trans hnot)) (by simp)
      | decl hu' _ hb' =>
          rw [hu, ht] at hu'
          cases hu'
          rw [Starts, fromCode_trailing] at hstarts
          obtain ⟨_, hbody⟩ := dropAssign_sheds hts hcomment
          obtain ⟨hbare, _, hrest⟩ := readsBody_sheds hb hb' hbody (stops_of_starts hstarts)
          rw [fromCode_trailing, fromCode_trailing]
          exact ⟨by simp [Node.declared, hbare], hrest.fromCode⟩

theorem fromCode_of_readsSpec {line : Nat} (h : ReadsSpec line ts node c) : fromCode ts = ts := by
  obtain ⟨t, us, name, rfl, ht⟩ := head_of_readsSpec h
  exact Token.fromCode_cons (by rw [ht]; rfl)

theorem starts_of_readsSpec {line : Nat} (h : ReadsSpec line ts node c) :
    Starts followsType ts := by
  obtain ⟨t, us, name, rfl, ht⟩ := head_of_readsSpec h
  exact Token.starts_cons (by rw [ht]; rfl) (by rw [ht]; rfl)

theorem head_of_sheds {line : Nat} (h : ReadsSpec line ts node c) (hts : Sheds g ts (u :: us)) :
    ∃ name, u.kind = .identifier name := by
  obtain ⟨t, vs, name, rfl, ht⟩ := head_of_readsSpec h
  obtain ⟨_, _, ⟨⟩, hu, -⟩ := hts.uncons (by rw [ht]; rfl)
  exact ⟨name, hu.trans ht⟩

theorem starts_of_readsGroup {line : Option Nat} (h : ReadsGroup line ts nodes c) :
    Starts followsType ts := by
  induction h with
  | semicolon ht _ ih | comment ht _ ih => exact (Token.starts_skip (by rw [ht]; rfl)).mpr ih
  | close ht => exact Token.starts_cons (by rw [ht]; rfl) (by rw [ht]; rfl)
  | spec hs => exact starts_of_readsSpec hs

theorem readsGroup_fromCode {line : Option Nat} (h : ReadsGroup line ts nodes c) :
    ∃ line' nodes', ReadsGroup line' (fromCode ts) nodes' c ∧
      Node.declared nodes' = Node.declared nodes := by
  induction h with
  | semicolon ht _ ih | comment ht _ ih =>
      rw [Token.fromCode_skip (by rw [ht]; rfl)]
      exact ih
  | close ht =>
      rw [Token.fromCode_cons (by rw [ht]; rfl)]
      exact ⟨none, [], .close ht, rfl⟩
  | @spec line _ _ _ _ _ _ hs h =>
      rw [fromCode_of_readsSpec hs]
      exact ⟨line, _, .spec hs h, rfl⟩

/-- Two groups with the same code declare the same. -/
theorem readsGroup_sheds {line line' : Option Nat} (h : ReadsGroup line ts nodes c)
    (h' : ReadsGroup line' us nodes' c') (hts : Sheds g (fromCode ts) (fromCode us)) :
    Node.declared nodes = Node.declared nodes' ∧ ∃ g', Sheds g' c.rest c'.rest := by
  induction h generalizing us line' nodes' g with
  | semicolon ht _ ih | comment ht _ ih =>
      rw [Token.fromCode_skip (by rw [ht]; rfl)] at hts
      exact ih h' hts
  | close ht =>
      rw [Token.fromCode_cons (by rw [ht]; rfl)] at hts
      obtain ⟨u, vs, hus, hu, hts⟩ := hts.uncons (by rw [ht]; rfl)
      obtain ⟨_, _, hall, hdeclared⟩ := readsGroup_fromCode h'
      rw [hus] at hall
      cases hall with
      | semicolon hu' | comment hu' => simp [hu, ht] at hu'
      | close => exact ⟨hdeclared, _, hts⟩
      | spec hs =>
          obtain ⟨_, _, _, ⟨⟩, hu'⟩ := head_of_readsSpec hs
          simp [hu, ht] at hu'
  | spec hs h ih =>
      rw [fromCode_of_readsSpec hs] at hts
      obtain ⟨_, _, hall, hdeclared⟩ := readsGroup_fromCode h'
      generalize fromCode us = vs at hall hts
      cases hall with
      | semicolon hu | comment hu | close hu =>
          obtain ⟨_, hu'⟩ := head_of_sheds hs hts
          simp [hu] at hu'
      | spec hs' hall =>
          obtain ⟨hnode, _, hcode⟩ := readsSpec_sheds hs hs' hts (starts_of_readsGroup h)
          obtain ⟨hnodes, hmore⟩ := ih hall hcode
          refine ⟨?_, hmore⟩
          rw [← hdeclared, Node.declared_cons, hnode, hnodes, ← Node.declared_cons]

theorem reads_sheds {line line' : Nat} (h : Reads line ts nodes c)
    (h' : Reads line' us nodes' c') (hts : Sheds g ts us) (hstarts : Starts followsType c.rest) :
    Node.declared nodes = Node.declared nodes' ∧
      ∃ g', Sheds g' (fromCode c.rest) (fromCode c'.rest) := by
  cases h with
  | group ht hg =>
      obtain ⟨u, vs, rfl, hu, hts⟩ := hts.uncons (by rw [ht]; rfl)
      cases h' with
      | group _ hg' =>
          obtain ⟨_, hcode⟩ := hts.fromCode
          obtain ⟨hnodes, _, hrest⟩ := readsGroup_sheds hg hg' hcode
          exact ⟨hnodes, hrest.fromCode⟩
      | single hs =>
          obtain ⟨_, _, _, ⟨⟩, hu'⟩ := head_of_readsSpec hs
          simp [hu, ht] at hu'
  | single hs =>
      cases h' with
      | group hu =>
          obtain ⟨_, hu'⟩ := head_of_sheds hs hts
          simp [hu] at hu'
      | single hs' => exact readsSpec_sheds hs hs' hts hstarts

end Decl

namespace Node

open Cursor TypeExpr
open Token (Form)

variable {g : Form} {ts us : List Token} {nodes nodes' : List Node}

theorem isCode_of_beginsSkipped {kind : Token.Kind} (h : beginsSkipped kind = true) :
    kind.isCode = true ∧ followsType kind = true := by
  rcases beginsSkipped_iff.mp h with rfl | rfl | rfl | rfl <;> exact ⟨rfl, rfl⟩

theorem starts_of_readsAll (h : ReadsAll ts nodes) : Starts followsType ts := by
  induction h with
  | nil => rfl
  | semicolon ht _ ih | comment ht _ ih => exact (Token.starts_skip (by rw [ht]; rfl)).mpr ih
  | package ht | type ht => exact Token.starts_cons (by rw [ht]; rfl) (by rw [ht]; rfl)
  | skipped ht =>
      obtain ⟨hcode, hfollows⟩ := isCode_of_beginsSkipped ht
      exact Token.starts_cons hfollows hcode

theorem readsAll_fromCode (h : ReadsAll ts nodes) :
    ∃ nodes', ReadsAll (fromCode ts) nodes' ∧ declared nodes' = declared nodes := by
  induction h with
  | nil => exact ⟨[], .nil, rfl⟩
  | semicolon ht _ ih | comment ht _ ih =>
      rw [Token.fromCode_skip (by rw [ht]; rfl)]
      exact ih
  | package ht hu h =>
      rw [Token.fromCode_cons (by rw [ht]; rfl)]
      exact ⟨_, .package ht hu h, rfl⟩
  | type ht hd h =>
      rw [Token.fromCode_cons (by rw [ht]; rfl)]
      exact ⟨_, .type ht hd h, rfl⟩
  | skipped ht h =>
      rw [Token.fromCode_cons (isCode_of_beginsSkipped ht).1]
      exact ⟨_, .skipped ht h, rfl⟩

/-- Two source texts with the same code declare the same. -/
theorem readsAll_sheds (h : ReadsAll ts nodes) (h' : ReadsAll us nodes')
    (hts : Sheds g (fromCode ts) (fromCode us)) : declared nodes = declared nodes' := by
  induction h generalizing us nodes' g with
  | nil =>
      obtain ⟨_, hall, hdeclared⟩ := readsAll_fromCode h'
      generalize fromCode us = vs at hall hts
      cases hts
      cases hall
      exact hdeclared
  | semicolon ht _ ih | comment ht _ ih =>
      rw [Token.fromCode_skip (by rw [ht]; rfl)] at hts
      exact ih h' hts
  | package ht hu _ ih =>
      rw [Token.fromCode_cons (by rw [ht]; rfl)] at hts
      obtain ⟨_, hall, hdeclared⟩ := readsAll_fromCode h'
      obtain ⟨t', us', hus, ht', hts⟩ := hts.uncons (by rw [ht]; rfl)
      obtain ⟨u', vs', rfl, hu', hts⟩ := hts.uncons (by rw [hu]; rfl)
      obtain ⟨_, hcode⟩ := hts.fromCode
      rw [hus] at hall
      cases hall with
      | semicolon hnot | comment hnot | type hnot | skipped hnot =>
          simp [ht', ht, beginsSkipped] at hnot
      | package _ _ hall =>
          rw [← hdeclared, declared_cons, ih hall hcode, declared_cons]
          rfl
  | type ht hd h ih =>
      rw [Token.fromCode_cons (by rw [ht]; rfl)] at hts
      obtain ⟨_, hall, hdeclared⟩ := readsAll_fromCode h'
      obtain ⟨t', us', hus, ht', hts⟩ := hts.uncons (by rw [ht]; rfl)
      rw [hus] at hall
      cases hall with
      | semicolon hnot | comment hnot | package hnot | skipped hnot =>
          simp [ht', ht, beginsSkipped] at hnot
      | type _ hd' hall =>
          obtain ⟨hnodes, _, hcode⟩ := Decl.reads_sheds hd hd' hts (starts_of_readsAll h)
          rw [← hdeclared, declared_append, declared_append, hnodes, ih hall hcode]
  | @skipped t ts nodes ht _ ih =>
      obtain ⟨hcode, -⟩ := isCode_of_beginsSkipped ht
      rw [Token.fromCode_cons hcode] at hts
      obtain ⟨_, hall, hdeclared⟩ := readsAll_fromCode h'
      have hcomment : t.kind.isComment = false := by
        rcases beginsSkipped_iff.mp ht with ht | ht | ht | ht <;> rw [ht] <;> rfl
      obtain ⟨t', us', hus, ht', hts⟩ := hts.uncons hcomment
      rw [hus] at hall
      cases hall with
      | semicolon hnot | comment hnot | package hnot | type hnot =>
          rw [← ht', hnot] at ht
          simp [beginsSkipped] at ht
      | skipped _ hall =>
          obtain ⟨_, hrest⟩ := Decl.afterDeclaration_sheds t.line t'.line hts
          obtain ⟨_, hcode⟩ := hrest.fromCode
          rw [← hdeclared, declared_cons, ih hall hcode, declared_cons]
          rfl

end Node

end DeclBridge
