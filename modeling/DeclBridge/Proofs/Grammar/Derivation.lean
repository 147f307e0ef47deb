import DeclBridge.Proofs.Grammar.Nesting

/-!
The grammar of type expressions as it is written down. A derivation says which tokens spell a type
expression and does not look at what follows them, so some tokens have several derivations. A type
expression is read to the end of each of them.
-/

namespace DeclBridge

namespace Token

/-- A group: two brackets of one pair around tokens that are properly nested. -/
def IsGroup (bracket : Bracket) (ts : List Token) : Prop :=
  ∃ t us u, ts = t :: (us ++ [u]) ∧ t.kind = .opening bracket ∧ Nested us ∧
    u.kind = .closing bracket

variable {bracket : Bracket} {ts us : List Token}

theorem IsGroup.nested (h : IsGroup bracket ts) : Nested ts := by
  obtain ⟨t, us, u, rfl, ht, hus, hu⟩ := h
  exact .enclose ht hus hu .nil

theorem IsGroup.groups (h : IsGroup bracket ts) (us : List Token) :
    ∃ line, Cursor.Groups (ts ++ us) ⟨line, us⟩ := by
  obtain ⟨t, inner, u, rfl, ht, hinner, hu⟩ := h
  refine ⟨u.line, ?_⟩
  rw [List.cons_append, List.append_assoc]
  exact Cursor.groups_of_nested ht hinner hu us

theorem IsGroup.nextIs (h : IsGroup bracket ts) (us : List Token) :
    Cursor.nextIs (.opening bracket) (ts ++ us) = true := by
  obtain ⟨t, inner, u, rfl, ht, -, -⟩ := h
  simp [ht]

end Token

namespace TypeExpr

open Cursor
open Token (IsGroup Nested)

/-- The lengths that have a form of their own. -/
inductive SimpleLength : List Token → TypeExpr → Prop where
  | int {t : Token} {text : String} : t.kind = .int text → SimpleLength [t] (.named text)
  | name {t : Token} {name : String} : t.kind = .identifier name → SimpleLength [t] (.named name)
  | qualified {t u v : Token} {qualifier name : String} :
      t.kind = .identifier qualifier → u.kind = .dot → v.kind = .identifier name →
      SimpleLength [t, u, v] (.qualified qualifier name)
  | counted {t : Token} : t.kind = .ellipsis → SimpleLength [t] countedLength

/-- Whether the tokens begin with an identifier and a dot. -/
def beginsQualified : List Token → Bool
  | t :: u :: _ =>
      match t.kind, u.kind with
      | .identifier _, .dot => true
      | _, _ => false
  | _ => false

/-- The tokens are the length of an array: a simple one, or any other expression that does not begin
as a qualified name does. -/
inductive DerivesLength : List Token → TypeExpr → Prop where
  | simple {ts : List Token} {length : TypeExpr} : SimpleLength ts length → DerivesLength ts length
  | computed {ts : List Token} :
      ts ≠ [] → Nested ts → (∀ length, ¬ SimpleLength ts length) → beginsQualified ts = false →
      DerivesLength ts computedLength

/-- The tokens are a type expression. -/
inductive Derives : List Token → TypeExpr → Prop where
  | name {t : Token} {name : String} : t.kind = .identifier name → Derives [t] (.named name)
  | qualified {t u v : Token} {qualifier name : String} :
      t.kind = .identifier qualifier → u.kind = .dot → v.kind = .identifier name →
      Derives [t, u, v] (.qualified qualifier name)
  | pointer {t : Token} {ts : List Token} {target : TypeExpr} :
      t.kind = .star → Derives ts target → Derives (t :: ts) (.pointer target)
  | slice {t u : Token} {ts : List Token} {elem : TypeExpr} :
      t.kind = .opening .square → u.kind = .closing .square → Derives ts elem →
      Derives (t :: u :: ts) (.slice elem)
  | array {t u : Token} {ts us : List Token} {elem length : TypeExpr} :
      t.kind = .opening .square → DerivesLength us length → u.kind = .closing .square →
      Derives ts elem → Derives (t :: (us ++ u :: ts)) (.array elem length)
  | map {t u v : Token} {ts us : List Token} {key value : TypeExpr} :
      t.kind = .keyword .map → u.kind = .opening .square → Derives us key →
      v.kind = .closing .square → Derives ts value →
      Derives (t :: u :: (us ++ v :: ts)) (.map key value)
  | dynamic {t u v : Token} :
      t.kind = .keyword .interface → u.kind = .opening .curly → v.kind = .closing .curly →
      Derives [t, u, v] .dynamic
  | interface {t : Token} {ts : List Token} :
      t.kind = .keyword .interface → IsGroup .curly ts → 2 < ts.length →
      Derives (t :: ts) (.unsupported "interface")
  | struct {t : Token} {ts : List Token} :
      t.kind = .keyword .struct → IsGroup .curly ts → Derives (t :: ts) (.unsupported "struct")
  | procedure {t : Token} {ts : List Token} :
      t.kind = .keyword .func → IsGroup .round ts → Derives (t :: ts) (.unsupported "func")
  | results {t : Token} {ts us : List Token} :
      t.kind = .keyword .func → IsGroup .round ts → IsGroup .round us →
      Derives (t :: (ts ++ us)) (.unsupported "func")
  | result {t : Token} {ts us : List Token} {type : TypeExpr} :
      t.kind = .keyword .func → IsGroup .round ts → Derives us type →
      Derives (t :: (ts ++ us)) (.unsupported "func")
  | channel {t : Token} {ts : List Token} {elem : TypeExpr} :
      t.kind = .keyword .chan → Derives ts elem → Derives (t :: ts) (.unsupported "chan")
  | sender {t u : Token} {ts : List Token} {elem : TypeExpr} :
      t.kind = .keyword .chan → u.kind = .arrow → Derives ts elem →
      Derives (t :: u :: ts) (.unsupported "chan")
  | receiver {t u : Token} {ts : List Token} {elem : TypeExpr} :
      t.kind = .arrow → u.kind = .keyword .chan → Derives ts elem →
      Derives (t :: u :: ts) (.unsupported "chan")
  | parens {t u : Token} {ts : List Token} {inner : TypeExpr} :
      t.kind = .opening .round → Derives ts inner → u.kind = .closing .round →
      Derives (t :: (ts ++ [u])) inner

/-- Whether the token may follow a type expression. -/
def mayFollow : Token.Kind → Bool
  | .semicolon | .closing _ | .comma | .string _ | .comment _ | .assign => true
  | _ => false

variable {t u : Token} {ts us : List Token} {type length : TypeExpr}

theorem nested_of_simpleLength (h : SimpleLength ts length) : Nested ts := by
  cases h with
  | int ht | name ht | counted ht => exact .cons (by rw [ht]; rfl) .nil
  | qualified ht hu hv =>
      exact .cons (by rw [ht]; rfl) (.cons (by rw [hu]; rfl) (.cons (by rw [hv]; rfl) .nil))

theorem ne_nil_of_derivesLength (h : DerivesLength ts length) : ts ≠ [] := by
  cases h with
  | simple h => cases h <;> simp
  | computed hne _ _ _ => exact hne

theorem nested_of_derivesLength (h : DerivesLength ts length) : Nested ts := by
  cases h with
  | simple h => exact nested_of_simpleLength h
  | computed _ h _ _ => exact h

/-- The brackets of a type expression are properly nested. -/
theorem nested_of_derives (h : Derives ts type) : Nested ts := by
  induction h with
  | name ht => exact .cons (by rw [ht]; rfl) .nil
  | qualified ht hu hv =>
      exact .cons (by rw [ht]; rfl) (.cons (by rw [hu]; rfl) (.cons (by rw [hv]; rfl) .nil))
  | pointer ht _ ih | channel ht _ ih => exact ih.cons (by rw [ht]; rfl)
  | slice ht hu _ ih => exact .enclose ht .nil hu ih
  | array ht hl hu _ ih => exact .enclose ht (nested_of_derivesLength hl) hu ih
  | map ht hu _ hv _ ihKey ihValue => exact .cons (by rw [ht]; rfl) (.enclose hu ihKey hv ihValue)
  | dynamic ht hu hv => exact .cons (by rw [ht]; rfl) (.enclose hu .nil hv .nil)
  | interface ht hg | struct ht hg | procedure ht hg => exact hg.nested.cons (by rw [ht]; rfl)
  | results ht hg hg' => exact (hg.nested.append hg'.nested).cons (by rw [ht]; rfl)
  | result ht hg _ ih => exact (hg.nested.append ih).cons (by rw [ht]; rfl)
  | sender ht hu _ ih | receiver ht hu _ ih =>
      exact (ih.cons (by rw [hu]; rfl)).cons (by rw [ht]; rfl)
  | parens ht _ hu ih => exact .enclose ht ih hu .nil

theorem beginsResult_of_derives (h : Derives ts type) :
    ∃ t us, ts = t :: us ∧ beginsResult t.kind = true := by
  cases h with
  | name ht | qualified ht | pointer ht | slice ht | array ht | map ht | dynamic ht | interface ht
  | struct ht | procedure ht | results ht | result ht | channel ht | sender ht | receiver ht
  | parens ht => exact ⟨_, _, rfl, by rw [ht]; rfl⟩

theorem isGroup_of_derives (h : Derives (t :: ts) type) (ht : t.kind = .opening .round) :
    IsGroup .round (t :: ts) := by
  cases h with
  | parens _ h hu => exact ⟨t, _, _, rfl, ht, nested_of_derives h, hu⟩
  | _ => simp_all

theorem afterLength?_of_nested (hts : Nested ts) (hu : u.kind = .closing .square) :
    afterLength? 0 (ts ++ u :: us) = some ⟨u.line, us⟩ := by
  have happend := afterLength?_append hts.nests (u :: us)
  rw [List.length_nil, afterLength?_close hu] at happend
  exact happend

/-- The length behind its first tokens is of no simple form if anything follows them. -/
theorem endsLength_of_nested (simple : TypeExpr) (hts : Nested (t :: ts))
    (hu : u.kind = .closing .square) (us : List Token) :
    EndsLength simple (t :: ts ++ u :: us) computedLength ⟨u.line, us⟩ := by
  refine ⟨afterLength?_of_nested hts hu, ?_⟩
  have ht := hts.kind_ne .square
  simp [ht]

theorem exists_simpleLength (ht : beginsLength t.kind = true) :
    ∃ length, SimpleLength [t] length := by
  cases hkind : t.kind with
  | int => exact ⟨_, .int hkind⟩
  | identifier => exact ⟨_, .name hkind⟩
  | ellipsis => exact ⟨_, .counted hkind⟩
  | _ => simp_all [beginsLength]

theorem readsLength_of_nested {v : Token} {vs : List Token} (ht : beginsLength t.kind = true)
    (hqualified : beginsQualified (t :: v :: vs) = false) (hvs : Nested (v :: vs))
    (hu : u.kind = .closing .square) (us : List Token) :
    ReadsLength (t :: (v :: vs ++ u :: us)) computedLength ⟨u.line, us⟩ := by
  have hend (simple : TypeExpr) := endsLength_of_nested simple hvs hu us
  cases hkind : t.kind with
  | int => exact .int hkind (hend _)
  | ellipsis => exact .counted hkind (hend _)
  | identifier =>
      have hdot : v.kind ≠ .dot := by
        intro hv
        simp [beginsQualified, hkind, hv] at hqualified
      exact .name hkind (.alone (by simp [hdot])) (hend _)
  | _ => simp_all [beginsLength]

theorem readsLength_of_derives (h : DerivesLength ts length) (hu : u.kind = .closing .square)
    (us : List Token) : ReadsLength (ts ++ u :: us) length ⟨u.line, us⟩ := by
  have hend (simple : TypeExpr) : EndsLength simple (u :: us) simple ⟨u.line, us⟩ :=
    ⟨afterLength?_close hu, by simp [hu]⟩
  cases h with
  | simple h =>
      cases h with
      | int ht => exact .int ht (hend _)
      | name ht => exact .name ht (.alone (by simp [hu])) (hend _)
      | qualified ht hdot hv => exact .name ht (.member hdot hv) (hend _)
      | counted ht => exact .counted ht (hend _)
  | computed hne hnested hsimple hqualified =>
      obtain ⟨t, vs, rfl⟩ := List.exists_cons_of_ne_nil hne
      cases hbegins : beginsLength t.kind with
      | false => exact .computed hbegins (endsLength_of_nested computedLength hnested hu us)
      | true =>
          have hother : t.kind.isBracket = false := by
            cases hkind : t.kind <;> simp_all [beginsLength, Token.Kind.isBracket]
          have hvs : Nested vs := by rwa [Nested, Token.nest_other hother] at hnested
          -- A first token that may be the length is not all of it.
          cases vs with
          | nil =>
              obtain ⟨simple, hlength⟩ := exists_simpleLength hbegins
              exact absurd hlength (hsimple simple)
          | cons v vs => exact readsLength_of_nested hbegins hqualified hvs hu us

/-- A channel of channels is read in two ways, according to which of them the arrow belongs to. -/
theorem reads_channel {c : Cursor} (ht : t.kind = .keyword .chan) (h : Reads ts type c) :
    Reads (t :: ts) (.unsupported "chan") c := by
  have hreads := h
  induction h generalizing t with
  | receiver hu hv h ih => exact .sender ht hu (ih hv h)
  | name hu | pointer hu | slice hu | array hu | parens hu | sender hu | channel hu | map hu
  | dynamic hu | interface hu | struct hu | procedure hu | results hu | result hu =>
      exact .channel ht (by simp [hu]) hreads

theorem nextIs_of_mayFollow {kind : Token.Kind} (hts : ts.head?.all (mayFollow ·.kind) = true)
    (hkind : mayFollow kind = false) : nextIs kind ts = false := by
  cases ts with
  | nil => rfl
  | cons t ts =>
      rw [nextIs_cons, decide_eq_false_iff_not]
      rintro rfl
      simp [hkind] at hts

theorem beginsResult_of_mayFollow (hts : ts.head?.all (mayFollow ·.kind) = true) :
    ts.head?.any (beginsResult ·.kind) = false := by
  cases ts with
  | nil => rfl
  | cons t ts => cases hkind : t.kind <;> simp_all [mayFollow, beginsResult]

/-- What a derivation spells is read, whatever follows that may follow a type expression. -/
theorem reads_of_derives (h : Derives ts type) (rest : List Token)
    (hrest : rest.head?.all (mayFollow ·.kind) = true) :
    ∃ line, Reads (ts ++ rest) type ⟨line, rest⟩ := by
  induction h generalizing rest with
  | name ht => exact ⟨_, .name ht (.alone (nextIs_of_mayFollow hrest rfl))⟩
  | qualified ht hu hv => exact ⟨_, .name ht (.member hu hv)⟩
  | pointer ht _ ih =>
      obtain ⟨line, hreads⟩ := ih rest hrest
      exact ⟨line, .pointer ht hreads⟩
  | slice ht hu _ ih =>
      obtain ⟨line, hreads⟩ := ih rest hrest
      exact ⟨line, .slice ht hu hreads⟩
  | @array t u ts us elem length ht hl hu _ ih =>
      obtain ⟨line, hreads⟩ := ih rest hrest
      refine ⟨line, ?_⟩
      have hlength := readsLength_of_derives hl hu (ts ++ rest)
      -- A length is not empty and does not begin with the bracket that closes it.
      have hclosing : nextIs (.closing .square) (us ++ u :: (ts ++ rest)) = false := by
        obtain ⟨v, vs, rfl⟩ := List.exists_cons_of_ne_nil (ne_nil_of_derivesLength hl)
        simp [(nested_of_derivesLength hl).kind_ne .square]
      simpa using Reads.array ht hclosing hlength hreads
  | @map t u v ts us key value ht hu _ hv _ ihKey ihValue =>
      obtain ⟨_, hkey⟩ := ihKey (v :: (ts ++ rest)) (by simp [hv, mayFollow])
      obtain ⟨line, hvalue⟩ := ihValue rest hrest
      refine ⟨line, ?_⟩
      simpa using Reads.map ht hu hkey hv hvalue
  | dynamic ht hu hv =>
      obtain ⟨line, hgroups⟩ := IsGroup.groups ⟨_, [], _, rfl, hu, .nil, hv⟩ rest
      exact ⟨line, .dynamic ht hgroups (by simp [hu, hv])⟩
  | interface ht hg hlong =>
      obtain ⟨line, hgroups⟩ := hg.groups rest
      refine ⟨line, .interface ht hgroups ?_⟩
      obtain ⟨u, us, v, rfl, -, hus, -⟩ := hg
      cases us with
      | nil => simp at hlong
      | cons w us => simp [hus.kind_ne .curly]
  | struct ht hg =>
      obtain ⟨line, hgroups⟩ := hg.groups rest
      exact ⟨line, .struct ht hgroups⟩
  | procedure ht hg =>
      obtain ⟨line, hgroups⟩ := hg.groups rest
      exact ⟨line, .procedure ht (hg.nextIs rest) hgroups (nextIs_of_mayFollow hrest rfl)
        (beginsResult_of_mayFollow hrest)⟩
  | @results t ts us ht hg hg' =>
      obtain ⟨_, hgroups⟩ := hg.groups (us ++ rest)
      obtain ⟨line, hgroups'⟩ := hg'.groups rest
      refine ⟨line, ?_⟩
      rw [List.cons_append, List.append_assoc]
      exact .results ht (hg.nextIs _) hgroups (hg'.nextIs rest) hgroups'
  | @result t ts us type ht hg h ih =>
      obtain ⟨_, hgroups⟩ := hg.groups (us ++ rest)
      rw [List.cons_append, List.append_assoc]
      obtain ⟨u, vs, rfl, hu⟩ := beginsResult_of_derives h
      by_cases hround : u.kind = .opening .round
      · -- Results in brackets are not read as a type.
        have hresults := isGroup_of_derives h hround
        obtain ⟨line, hgroups'⟩ := hresults.groups rest
        exact ⟨line, .results ht (hg.nextIs _) hgroups (hresults.nextIs rest) hgroups'⟩
      · obtain ⟨line, hreads⟩ := ih rest hrest
        exact ⟨line, .result ht (hg.nextIs _) hgroups (by simp [hround]) (by simpa using hu) hreads⟩
  | channel ht _ ih =>
      obtain ⟨line, hreads⟩ := ih rest hrest
      exact ⟨line, reads_channel ht hreads⟩
  | sender ht hu _ ih =>
      obtain ⟨line, hreads⟩ := ih rest hrest
      exact ⟨line, .sender ht hu hreads⟩
  | receiver ht hu _ ih =>
      obtain ⟨line, hreads⟩ := ih rest hrest
      exact ⟨line, .receiver ht hu hreads⟩
  | @parens t u ts inner ht _ hu ih =>
      obtain ⟨_, hreads⟩ := ih (u :: rest) (by simp [hu, mayFollow])
      refine ⟨u.line, ?_⟩
      simpa using Reads.parens ht hreads hu

theorem Derives.unique {type' : TypeExpr} (h : Derives ts type) (h' : Derives ts type') :
    type = type' := by
  obtain ⟨_, hreads⟩ := reads_of_derives h [] rfl
  obtain ⟨_, hreads'⟩ := reads_of_derives h' [] rfl
  exact (hreads.unique hreads').1

/-- The reader takes the tokens of a derivation and no others, and gives the type expression that
they spell. -/
theorem read_derivation (h : Derives ts type) (rest : List Token)
    (hrest : rest.head?.all (mayFollow ·.kind) = true) :
    ∃ c, read (ts ++ rest) = .ok (type, c) ∧ c.1.rest = rest := by
  obtain ⟨line, hreads⟩ := reads_of_derives h rest hrest
  obtain ⟨hlength, hread⟩ := read_of_reads hreads
  exact ⟨_, hread, rfl⟩

theorem read_derivation_channels :
    ∃ c, read ([⟨.keyword .func, "func", ⟨1, 1⟩⟩, ⟨.opening .round, "(", ⟨1, 5⟩⟩,
          ⟨.closing .round, ")", ⟨1, 6⟩⟩, ⟨.keyword .chan, "chan", ⟨1, 8⟩⟩, ⟨.arrow, "<-", ⟨1, 13⟩⟩,
          ⟨.keyword .chan, "chan", ⟨1, 15⟩⟩, ⟨.identifier "T", "T", ⟨1, 20⟩⟩] ++
        [.lineEnd ⟨1, 21⟩]) = .ok (.unsupported "func", c) ∧ c.1.rest = [.lineEnd ⟨1, 21⟩] := by
  refine read_derivation ?_ [_] rfl
  refine @Derives.result _ [_, _] _ (.unsupported "chan") rfl ⟨_, [], _, rfl, rfl, .nil, rfl⟩ ?_
  -- The arrow may belong to the inner channel as well as to the outer one.
  exact .channel rfl (.receiver rfl rfl (.name rfl))

end TypeExpr

end DeclBridge
