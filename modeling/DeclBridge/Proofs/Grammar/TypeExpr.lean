import DeclBridge.TypeExpr.OfTokens

/-!
A grammar of type expressions, as derivations that say which tokens a type expression takes and
where reading goes on. A type expression is read from tokens exactly if it is derived from them.
-/

namespace DeclBridge

namespace Cursor

theorem nextIs_iff {kind : Token.Kind} {ts : List Token} :
    nextIs kind ts = true ↔ ∃ t us, ts = t :: us ∧ t.kind = kind := by
  cases ts <;> simp [nextIs]

@[simp]
theorem nextIs_cons (kind : Token.Kind) (t : Token) (ts : List Token) :
    nextIs kind (t :: ts) = decide (t.kind = kind) := by
  simp [nextIs]

theorem expect_eq_ok {kind : Token.Kind} {ts : List Token} {c : After ts} :
    expect kind ts = .ok c ↔ ∃ t us, ts = t :: us ∧ t.kind = kind ∧ c.1 = ⟨t.line, us⟩ := by
  rcases c with ⟨c, hc⟩
  cases ts with
  | nil => simp [expect]
  | cons t ts =>
      simp only [expect, List.cons.injEq]
      split
      · rename_i h
        constructor
        · rintro ⟨⟩
          exact ⟨t, ts, ⟨rfl, rfl⟩, h, rfl⟩
        · rintro ⟨u, us, ⟨rfl, rfl⟩, -, rfl⟩
          rfl
      · rename_i h
        constructor
        · rintro ⟨⟩
        · rintro ⟨u, us, ⟨rfl, rfl⟩, hu, -⟩
          exact absurd hu h

theorem identifier_eq_ok {ts : List Token} {name : String} {c : After ts} :
    identifier ts = .ok (name, c) ↔
      ∃ t us, ts = t :: us ∧ t.kind = .identifier name ∧ c.1 = ⟨t.line, us⟩ := by
  rcases c with ⟨c, hc⟩
  cases ts with
  | nil => simp [identifier]
  | cons t ts =>
      simp only [identifier, List.cons.injEq]
      split
      · rename_i first h
        constructor
        · rintro ⟨⟩
          exact ⟨t, ts, ⟨rfl, rfl⟩, h, rfl⟩
        · rintro ⟨u, us, ⟨rfl, rfl⟩, hu, rfl⟩
          rw [h] at hu
          cases hu
          rfl
      · rename_i h
        constructor
        · rintro ⟨⟩
        · rintro ⟨u, us, ⟨rfl, rfl⟩, hu, -⟩
          exact absurd hu (h name)

/-- The tokens begin with a bracketed group, and the place is behind it. -/
def Groups (ts : List Token) (c : Cursor) : Prop :=
  ∃ t us bracket, ts = t :: us ∧ t.kind = .opening bracket ∧ afterGroup? 0 us = some c

theorem group_eq_ok {ts : List Token} {c : After ts} : group ts = .ok c ↔ Groups ts c.1 := by
  rcases c with ⟨c, hc⟩
  cases ts with
  | nil => simp [group, Groups]
  | cons t ts =>
      simp only [group, Groups, List.cons.injEq]
      split
      · rename_i bracket hbracket
        constructor
        · intro h
          split at h
          · rename_i d hd
            cases h
            exact ⟨t, ts, bracket, ⟨rfl, rfl⟩, hbracket, hd⟩
          · cases h
        · rintro ⟨u, us, other, ⟨rfl, rfl⟩, -, hc⟩
          split
          · rename_i d hd
            rw [hc] at hd
            cases hd
            rfl
          · rename_i hd
            rw [hc] at hd
            cases hd
      · rename_i h
        constructor
        · rintro ⟨⟩
        · rintro ⟨u, us, bracket, ⟨rfl, rfl⟩, hu, -⟩
          exact absurd hu (h bracket)

end Cursor

namespace TypeExpr

open Cursor

/-- A name is completed by a member behind a dot, or stands alone. -/
inductive ReadsMember (name : String) : Cursor → TypeExpr → Cursor → Prop where
  | alone {c : Cursor} : nextIs .dot c.rest = false → ReadsMember name c (.named name) c
  | member {line : Nat} {t u : Token} {us : List Token} {member : String} :
      t.kind = .dot → u.kind = .identifier member →
      ReadsMember name ⟨line, t :: u :: us⟩ (.qualified name member) ⟨u.line, us⟩

/-- The tokens reach to the bracket that closes a length. The length is `simple` if the bracket
comes first. -/
def EndsLength (simple : TypeExpr) (ts : List Token) (length : TypeExpr) (c : Cursor) : Prop :=
  afterLength? 0 ts = some c ∧
    length = if nextIs (.closing .square) ts then simple else computedLength

/-- Whether a token begins a length that may be simple. -/
def beginsLength : Token.Kind → Bool
  | .int _ | .ellipsis | .identifier _ => true
  | _ => false

/-- The tokens begin with the length of an array and the bracket that closes it. -/
inductive ReadsLength : List Token → TypeExpr → Cursor → Prop where
  | int {t : Token} {ts : List Token} {text : String} {length : TypeExpr} {c : Cursor} :
      t.kind = .int text → EndsLength (.named text) ts length c →
      ReadsLength (t :: ts) length c
  | counted {t : Token} {ts : List Token} {length : TypeExpr} {c : Cursor} :
      t.kind = .ellipsis → EndsLength countedLength ts length c →
      ReadsLength (t :: ts) length c
  | name {t : Token} {ts : List Token} {name : String} {simple length : TypeExpr} {c d : Cursor} :
      t.kind = .identifier name → ReadsMember name ⟨t.line, ts⟩ simple c →
      EndsLength simple c.rest length d → ReadsLength (t :: ts) length d
  | computed {t : Token} {ts : List Token} {length : TypeExpr} {c : Cursor} :
      beginsLength t.kind = false → EndsLength computedLength (t :: ts) length c →
      ReadsLength (t :: ts) length c

/-- The tokens begin with a type expression, and the place is behind it. -/
inductive Reads : List Token → TypeExpr → Cursor → Prop where
  | name {t : Token} {ts : List Token} {name : String} {type : TypeExpr} {c : Cursor} :
      t.kind = .identifier name → ReadsMember name ⟨t.line, ts⟩ type c → Reads (t :: ts) type c
  | pointer {t : Token} {ts : List Token} {target : TypeExpr} {c : Cursor} :
      t.kind = .star → Reads ts target c → Reads (t :: ts) (.pointer target) c
  | slice {t u : Token} {ts : List Token} {elem : TypeExpr} {c : Cursor} :
      t.kind = .opening .square → u.kind = .closing .square → Reads ts elem c →
      Reads (t :: u :: ts) (.slice elem) c
  | array {t : Token} {ts : List Token} {elem length : TypeExpr} {c d : Cursor} :
      t.kind = .opening .square → nextIs (.closing .square) ts = false →
      ReadsLength ts length c → Reads c.rest elem d → Reads (t :: ts) (.array elem length) d
  | parens {t u : Token} {ts us : List Token} {inner : TypeExpr} {line : Nat} :
      t.kind = .opening .round → Reads ts inner ⟨line, u :: us⟩ → u.kind = .closing .round →
      Reads (t :: ts) inner ⟨u.line, us⟩
  | receiver {t u : Token} {ts : List Token} {elem : TypeExpr} {c : Cursor} :
      t.kind = .arrow → u.kind = .keyword .chan → Reads ts elem c →
      Reads (t :: u :: ts) (.unsupported "chan") c
  | sender {t u : Token} {ts : List Token} {elem : TypeExpr} {c : Cursor} :
      t.kind = .keyword .chan → u.kind = .arrow → Reads ts elem c →
      Reads (t :: u :: ts) (.unsupported "chan") c
  | channel {t : Token} {ts : List Token} {elem : TypeExpr} {c : Cursor} :
      t.kind = .keyword .chan → nextIs .arrow ts = false → Reads ts elem c →
      Reads (t :: ts) (.unsupported "chan") c
  | map {t u v : Token} {ts us : List Token} {key value : TypeExpr} {line : Nat} {c : Cursor} :
      t.kind = .keyword .map → u.kind = .opening .square → Reads ts key ⟨line, v :: us⟩ →
      v.kind = .closing .square → Reads us value c → Reads (t :: u :: ts) (.map key value) c
  | dynamic {t : Token} {ts : List Token} {c : Cursor} :
      t.kind = .keyword .interface → Groups ts c →
      (nextIs (.opening .curly) ts && nextIs (.closing .curly) ts.tail) = true →
      Reads (t :: ts) .dynamic c
  | interface {t : Token} {ts : List Token} {c : Cursor} :
      t.kind = .keyword .interface → Groups ts c →
      (nextIs (.opening .curly) ts && nextIs (.closing .curly) ts.tail) = false →
      Reads (t :: ts) (.unsupported "interface") c
  | struct {t : Token} {ts : List Token} {c : Cursor} :
      t.kind = .keyword .struct → Groups ts c → Reads (t :: ts) (.unsupported "struct") c
  | procedure {t : Token} {ts : List Token} {c : Cursor} :
      t.kind = .keyword .func → nextIs (.opening .round) ts = true → Groups ts c →
      nextIs (.opening .round) c.rest = false →
      c.rest.head?.any (beginsResult ·.kind) = false → Reads (t :: ts) (.unsupported "func") c
  | results {t : Token} {ts : List Token} {c d : Cursor} :
      t.kind = .keyword .func → nextIs (.opening .round) ts = true → Groups ts c →
      nextIs (.opening .round) c.rest = true → Groups c.rest d →
      Reads (t :: ts) (.unsupported "func") d
  | result {t : Token} {ts : List Token} {type : TypeExpr} {c d : Cursor} :
      t.kind = .keyword .func → nextIs (.opening .round) ts = true → Groups ts c →
      nextIs (.opening .round) c.rest = false →
      c.rest.head?.any (beginsResult ·.kind) = true → Reads c.rest type d →
      Reads (t :: ts) (.unsupported "func") d

theorem readMember_eq_ok {name : String} {ts : List Token} {c d : After ts} {type : TypeExpr} :
    readMember name c = .ok (type, d) ↔ ReadsMember name c.1 type d.1 := by
  rcases c with ⟨⟨line, rest⟩, hc⟩
  rcases d with ⟨d, hd⟩
  unfold readMember
  split
  · rename_i hdot
    simp only [bind_eq_ok, expect_eq_ok]
    constructor
    · rintro ⟨e, ⟨t, us, rfl, ht, he⟩, ⟨member, f⟩, hf, hlast⟩
      obtain ⟨u, vs, hus, hu, hf⟩ := identifier_eq_ok.mp hf
      rw [he] at hus
      cases hus
      cases hlast
      simp only [After.trans, hf]
      exact .member ht hu
    · intro h
      cases h with
      | alone hdot' => simp_all
      | @member _ t u us member ht hu =>
          refine ⟨⟨⟨t.line, u :: us⟩, by simp⟩, ⟨t, u :: us, rfl, ht, rfl⟩,
            (member, ⟨⟨u.line, us⟩, by simp⟩), ?_, rfl⟩
          exact identifier_eq_ok.mpr ⟨u, us, rfl, hu, rfl⟩
  · rename_i hdot
    constructor
    · rintro ⟨⟩
      exact .alone (by simpa using hdot)
    · intro h
      cases h with
      | alone => rfl
      | member ht => simp_all

theorem readLengthEnd_eq_ok {simple length : TypeExpr} {ts : List Token} {c : After ts} :
    readLengthEnd simple ts = .ok (length, c) ↔ EndsLength simple ts length c.1 := by
  rcases c with ⟨c, hc⟩
  unfold readLengthEnd EndsLength
  constructor
  · intro h
    split at h
    · rename_i d hd
      cases h
      exact ⟨hd, rfl⟩
    · cases h
  · rintro ⟨hd, rfl⟩
    split
    · rename_i e he
      rw [hd] at he
      cases he
      rfl
    · rename_i he
      rw [hd] at he
      cases he

theorem readLength_eq_ok {ts : List Token} {length : TypeExpr} {c : After ts} :
    readLength ts = .ok (length, c) ↔ ReadsLength ts length c.1 := by
  rcases c with ⟨c, hc⟩
  cases ts with
  | nil =>
      simp only [readLength]
      constructor
      · rintro ⟨⟩
      · rintro ⟨⟩
  | cons t ts =>
      simp only [readLength]
      split
      · rename_i text ht
        simp only [bind_eq_ok, Prod.exists, readLengthEnd_eq_ok]
        constructor
        · rintro ⟨length, d, hd, ⟨⟩⟩
          exact .int ht hd
        · intro h
          cases h with
          | int ht' he =>
              rw [ht] at ht'
              cases ht'
              exact ⟨length, ⟨c, length_of_afterLength? he.1⟩, he, rfl⟩
          | _ => simp_all [beginsLength]
      · rename_i ht
        simp only [bind_eq_ok, Prod.exists, readLengthEnd_eq_ok]
        constructor
        · rintro ⟨length, d, hd, ⟨⟩⟩
          exact .counted ht hd
        · intro h
          cases h with
          | counted _ he => exact ⟨length, ⟨c, length_of_afterLength? he.1⟩, he, rfl⟩
          | _ => simp_all [beginsLength]
      · rename_i name ht
        simp only [bind_eq_ok, Prod.exists, readLengthEnd_eq_ok, readMember_eq_ok]
        constructor
        · rintro ⟨simple, d, hd, length, e, he, ⟨⟩⟩
          exact .name ht hd he
        · intro h
          cases h with
          | @name _ _ _ simple _ d _ ht' hm he =>
              rw [ht] at ht'
              cases ht'
              have hd : d.rest.length < (t :: ts).length := by
                cases hm with
                | alone => exact Nat.lt_succ_self _
                | member =>
                    simp only [List.length_cons]
                    omega
              exact ⟨simple, ⟨d, hd⟩, hm, length, ⟨c, length_of_afterLength? he.1⟩, he, rfl⟩
          | _ => simp_all [beginsLength]
      · rename_i hint hcounted hname
        rw [readLengthEnd_eq_ok]
        constructor
        · intro h
          refine .computed ?_ h
          unfold beginsLength
          split <;> simp_all
        · intro h
          cases h with
          | computed _ he => exact he
          | _ => simp_all

/-- A type expression that is read is derived. -/
theorem reads_of_read {ts : List Token} {type : TypeExpr} {c : After ts}
    (h : read ts = .ok (type, c)) : Reads ts type c.1 := by
  -- The cases of the reader in their order: the end, a name, a star, brackets, channels, the other
  -- keywords, and what begins no type.
  induction ts using read.induct generalizing type with
  | case1 => simp [read] at h
  | case2 t ts name ht =>
      simp only [read, ht] at h
      exact .name ht (readMember_eq_ok.mp h)
  | case3 t ts ht ih =>
      simp only [read, ht, bind_eq_ok] at h
      obtain ⟨⟨target, d⟩, hd, ⟨⟩⟩ := h
      exact .pointer ht (ih hd)
  | case4 t ts ht hclosing ih =>
      simp only [read, ht, hclosing, if_true, bind_eq_ok] at h
      obtain ⟨⟨d, hlt⟩, hd, ⟨elem, e⟩, he, ⟨⟩⟩ := h
      obtain ⟨u, us, rfl, hu, rfl⟩ := expect_eq_ok.mp hd
      exact .slice ht hu (ih _ he)
  | case5 t ts ht hclosing ih =>
      have hclosing : nextIs (.closing .square) ts = false := by simpa using hclosing
      simp only [read, ht, hclosing, Bool.false_eq_true, if_false, bind_eq_ok] at h
      obtain ⟨⟨length, d⟩, hd, ⟨elem, e⟩, he, ⟨⟩⟩ := h
      exact .array ht hclosing (readLength_eq_ok.mp hd) (ih d he)
  | case6 t ts ht ih =>
      simp only [read, ht, bind_eq_ok] at h
      obtain ⟨⟨inner, ⟨⟨line, rest⟩, hlt⟩⟩, hd, ⟨e, hlt'⟩, he, ⟨⟩⟩ := h
      obtain ⟨u, us, rfl, hu, rfl⟩ := expect_eq_ok.mp he
      exact .parens ht (ih hd) hu
  | case7 t ts ht ih =>
      simp only [read, ht, bind_eq_ok] at h
      obtain ⟨⟨d, hlt⟩, hd, ⟨elem, e⟩, he, ⟨⟩⟩ := h
      obtain ⟨u, us, rfl, hu, rfl⟩ := expect_eq_ok.mp hd
      exact .receiver ht hu (ih _ he)
  | case8 t ts ht harrow ih =>
      simp only [read, ht, harrow, if_true, bind_eq_ok] at h
      obtain ⟨⟨d, hlt⟩, hd, ⟨elem, e⟩, he, ⟨⟩⟩ := h
      obtain ⟨u, us, rfl, hu, rfl⟩ := expect_eq_ok.mp hd
      exact .sender ht hu (ih _ he)
  | case9 t ts ht harrow ih =>
      have harrow : nextIs .arrow ts = false := by simpa using harrow
      simp only [read, ht, harrow, Bool.false_eq_true, if_false, bind_eq_ok] at h
      obtain ⟨⟨elem, d⟩, hd, ⟨⟩⟩ := h
      exact .channel ht harrow (ih hd)
  | case10 t ts ht ihKey ihValue =>
      simp only [read, ht, bind_eq_ok] at h
      obtain ⟨⟨d, hd'⟩, hd, ⟨key, ⟨⟨line, rest⟩, he'⟩⟩, he, ⟨f, hf'⟩, hf, ⟨value, g⟩, hg, ⟨⟩⟩ := h
      obtain ⟨u, us, rfl, hu, rfl⟩ := expect_eq_ok.mp hd
      obtain ⟨v, vs, rfl, hv, rfl⟩ := expect_eq_ok.mp hf
      exact .map ht hu (ihKey _ he) hv (ihValue _ _ _ hg)
  | case11 t ts ht =>
      simp only [read, ht, bind_eq_ok] at h
      obtain ⟨d, hd, h⟩ := h
      split at h
      · rename_i hempty
        cases h
        exact .dynamic ht (group_eq_ok.mp hd) hempty
      · rename_i hempty
        cases h
        exact .interface ht (group_eq_ok.mp hd) (by simpa using hempty)
  | case12 t ts ht =>
      simp only [read, ht, bind_eq_ok] at h
      obtain ⟨d, hd, ⟨⟩⟩ := h
      exact .struct ht (group_eq_ok.mp hd)
  | case13 t ts ht hround ih => simp [read, ht, hround, bind, Except.bind] at h
  | case14 t ts ht hround ih =>
      have hround : nextIs (.opening .round) ts = true := by simpa using hround
      simp only [read, ht, hround] at h
      obtain ⟨d, hd, h⟩ := bind_eq_ok.mp h
      have hparameters := group_eq_ok.mp hd
      split at h
      · rename_i hresults
        simp only [bind_eq_ok] at h
        obtain ⟨e, he, ⟨⟩⟩ := h
        exact .results ht hround hparameters hresults (group_eq_ok.mp he)
      · rename_i hresults
        split at h
        · rename_i hresult
          simp only [bind_eq_ok] at h
          obtain ⟨⟨result, e⟩, he, ⟨⟩⟩ := h
          exact .result ht hround hparameters (by simpa using hresults) hresult (ih d he)
        · rename_i hresult
          cases h
          exact .procedure ht hround hparameters (eq_false_of_ne_true hresults)
            (eq_false_of_ne_true hresult)
  | case15 t ts => simp_all [read]

theorem length_of_groups {ts : List Token} {c : Cursor} (h : Groups ts c) :
    c.rest.length < ts.length := by
  obtain ⟨t, us, bracket, rfl, -, hc⟩ := h
  exact Nat.lt_succ_of_lt (length_of_afterGroup? hc)

theorem length_of_readsMember {name : String} {c d : Cursor} {type : TypeExpr}
    (h : ReadsMember name c type d) : d.rest.length ≤ c.rest.length := by
  cases h with
  | alone => exact Nat.le_refl _
  | member => simp only [List.length_cons]; omega

theorem length_of_readsLength {ts : List Token} {length : TypeExpr} {c : Cursor}
    (h : ReadsLength ts length c) : c.rest.length < ts.length := by
  cases h with
  | int _ he => exact Nat.lt_succ_of_lt (length_of_afterLength? he.1)
  | counted _ he => exact Nat.lt_succ_of_lt (length_of_afterLength? he.1)
  | name _ hm he =>
      have hlt := length_of_afterLength? he.1
      have hle := length_of_readsMember hm
      simp only [List.length_cons] at hle ⊢
      omega
  | computed _ he => exact length_of_afterLength? he.1

/-- A type expression that is derived is read. -/
theorem read_of_reads {ts : List Token} {type : TypeExpr} {c : Cursor} (h : Reads ts type c) :
    ∃ hc, read ts = .ok (type, ⟨c, hc⟩) := by
  induction h with
  | @name t ts name type c ht hm =>
      refine ⟨Nat.lt_succ_of_le (length_of_readsMember hm), ?_⟩
      simp only [read, ht]
      exact readMember_eq_ok.mpr hm
  | pointer ht _ ih =>
      obtain ⟨hc, hread⟩ := ih
      refine ⟨Nat.lt_succ_of_lt hc, ?_⟩
      simp only [read, ht]
      exact bind_eq_ok.mpr ⟨_, hread, rfl⟩
  | @slice t u ts elem c ht hu _ ih =>
      obtain ⟨hc, hread⟩ := ih
      refine ⟨Nat.lt_succ_of_lt (Nat.lt_succ_of_lt hc), ?_⟩
      simp only [read, ht, nextIs_cons, hu, decide_true, if_true]
      exact bind_eq_ok.mpr ⟨⟨⟨u.line, ts⟩, by simp⟩, expect_eq_ok.mpr ⟨u, ts, rfl, hu, rfl⟩,
        bind_eq_ok.mpr ⟨_, hread, rfl⟩⟩
  | @array t ts elem length c d ht hclosing hl _ ih =>
      obtain ⟨hd, hread⟩ := ih
      have hc := length_of_readsLength hl
      refine ⟨Nat.lt_succ_of_lt (Nat.lt_trans hd hc), ?_⟩
      simp only [read, ht, hclosing, Bool.false_eq_true, if_false]
      exact bind_eq_ok.mpr ⟨(length, ⟨c, hc⟩), readLength_eq_ok.mpr hl,
        bind_eq_ok.mpr ⟨_, hread, rfl⟩⟩
  | @parens t u ts us inner line ht _ hu ih =>
      obtain ⟨hc, hread⟩ := ih
      have hlt : us.length < ts.length := by simp only [List.length_cons] at hc; omega
      refine ⟨Nat.lt_succ_of_lt hlt, ?_⟩
      simp only [read, ht]
      exact bind_eq_ok.mpr ⟨_, hread, bind_eq_ok.mpr ⟨⟨⟨u.line, us⟩, by simp⟩,
        expect_eq_ok.mpr ⟨u, us, rfl, hu, rfl⟩, rfl⟩⟩
  | @receiver t u ts elem c ht hu _ ih =>
      obtain ⟨hc, hread⟩ := ih
      refine ⟨Nat.lt_succ_of_lt (Nat.lt_succ_of_lt hc), ?_⟩
      simp only [read, ht]
      exact bind_eq_ok.mpr ⟨⟨⟨u.line, ts⟩, by simp⟩, expect_eq_ok.mpr ⟨u, ts, rfl, hu, rfl⟩,
        bind_eq_ok.mpr ⟨_, hread, rfl⟩⟩
  | @sender t u ts elem c ht hu _ ih =>
      obtain ⟨hc, hread⟩ := ih
      refine ⟨Nat.lt_succ_of_lt (Nat.lt_succ_of_lt hc), ?_⟩
      simp only [read, ht, nextIs_cons, hu, decide_true, if_true]
      exact bind_eq_ok.mpr ⟨⟨⟨u.line, ts⟩, by simp⟩, expect_eq_ok.mpr ⟨u, ts, rfl, hu, rfl⟩,
        bind_eq_ok.mpr ⟨_, hread, rfl⟩⟩
  | @channel t ts elem c ht harrow _ ih =>
      obtain ⟨hc, hread⟩ := ih
      refine ⟨Nat.lt_succ_of_lt hc, ?_⟩
      simp only [read, ht, harrow, Bool.false_eq_true, if_false]
      exact bind_eq_ok.mpr ⟨_, hread, rfl⟩
  | @map t u v ts us key value line c ht hu _ hv _ ihKey ihValue =>
      obtain ⟨hkey, hreadKey⟩ := ihKey
      obtain ⟨hvalue, hreadValue⟩ := ihValue
      have hlt : c.rest.length < (u :: ts).length := by
        simp only [List.length_cons] at hkey ⊢
        omega
      refine ⟨Nat.lt_succ_of_lt hlt, ?_⟩
      simp only [read, ht]
      exact bind_eq_ok.mpr ⟨⟨⟨u.line, ts⟩, by simp⟩, expect_eq_ok.mpr ⟨u, ts, rfl, hu, rfl⟩,
        bind_eq_ok.mpr ⟨_, hreadKey, bind_eq_ok.mpr ⟨⟨⟨v.line, us⟩, by simp⟩,
          expect_eq_ok.mpr ⟨v, us, rfl, hv, rfl⟩, bind_eq_ok.mpr ⟨_, hreadValue, rfl⟩⟩⟩⟩
  | @dynamic t ts c ht hg hempty =>
      have hc := length_of_groups hg
      refine ⟨Nat.lt_succ_of_lt hc, ?_⟩
      simp only [read, ht, hempty, if_true]
      exact bind_eq_ok.mpr ⟨⟨c, hc⟩, group_eq_ok.mpr hg, rfl⟩
  | @interface t ts c ht hg hempty =>
      have hc := length_of_groups hg
      refine ⟨Nat.lt_succ_of_lt hc, ?_⟩
      simp only [read, ht, hempty, Bool.false_eq_true, if_false]
      exact bind_eq_ok.mpr ⟨⟨c, hc⟩, group_eq_ok.mpr hg, rfl⟩
  | @struct t ts c ht hg =>
      have hc := length_of_groups hg
      refine ⟨Nat.lt_succ_of_lt hc, ?_⟩
      simp only [read, ht]
      exact bind_eq_ok.mpr ⟨⟨c, hc⟩, group_eq_ok.mpr hg, rfl⟩
  | @procedure t ts c ht hround hg hresults hresult =>
      have hc := length_of_groups hg
      refine ⟨Nat.lt_succ_of_lt hc, ?_⟩
      simp only [read, ht, hround]
      refine bind_eq_ok.mpr ⟨⟨c, hc⟩, group_eq_ok.mpr hg, ?_⟩
      simp only [hresults, hresult, Bool.false_eq_true, if_false]
      rfl
  | @results t ts c d ht hround hg hresults hg' =>
      have hc := length_of_groups hg
      have hd := length_of_groups hg'
      refine ⟨Nat.lt_succ_of_lt (Nat.lt_trans hd hc), ?_⟩
      simp only [read, ht, hround]
      refine bind_eq_ok.mpr ⟨⟨c, hc⟩, group_eq_ok.mpr hg, ?_⟩
      simp only [hresults, if_true]
      exact bind_eq_ok.mpr ⟨⟨d, hd⟩, group_eq_ok.mpr hg', rfl⟩
  | @result t ts type c d ht hround hg hresults hresult _ ih =>
      obtain ⟨hd, hread⟩ := ih
      have hc := length_of_groups hg
      refine ⟨Nat.lt_succ_of_lt (Nat.lt_trans hd hc), ?_⟩
      simp only [read, ht, hround]
      refine bind_eq_ok.mpr ⟨⟨c, hc⟩, group_eq_ok.mpr hg, ?_⟩
      simp only [hresults, hresult, Bool.false_eq_true, if_false, if_true]
      exact bind_eq_ok.mpr ⟨_, hread, rfl⟩

theorem read_eq_ok {ts : List Token} {type : TypeExpr} {c : After ts} :
    read ts = .ok (type, c) ↔ Reads ts type c.1 := by
  constructor
  · exact reads_of_read
  · intro h
    obtain ⟨hc, hread⟩ := read_of_reads h
    exact hread

/-- Tokens begin with at most one type expression. -/
theorem Reads.unique {ts : List Token} {type type' : TypeExpr} {c c' : Cursor}
    (h : Reads ts type c) (h' : Reads ts type' c') : type = type' ∧ c = c' := by
  obtain ⟨hc, hread⟩ := read_of_reads h
  obtain ⟨hc', hread'⟩ := read_of_reads h'
  rw [hread] at hread'
  cases hread'
  exact ⟨rfl, rfl⟩

end TypeExpr

end DeclBridge
