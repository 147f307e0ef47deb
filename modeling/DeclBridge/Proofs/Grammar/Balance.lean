import DeclBridge.Proofs.Grammar.Nesting
import DeclBridge.Proofs.Scan.Tokens

/-!
Brackets that are counted. What a reader takes has as many closing as opening brackets, but for
those that close nothing in the length of an array, and for those that stay open when the end of the
text cuts off a declaration that is skipped.
-/

namespace DeclBridge

namespace Token

def Kind.isOpening : Kind → Bool
  | opening _ => true
  | _ => false

def Kind.isClosing : Kind → Bool
  | closing _ => true
  | _ => false

/-- How many more brackets open than close a group. -/
def balance (ts : List Token) : Int :=
  ts.countP (·.kind.isOpening) - ts.countP (·.kind.isClosing)

variable {t : Token} {bracket : Bracket} {ts : List Token}

theorem balance_nil : balance [] = 0 :=
  rfl

theorem balance_opening (h : t.kind = .opening bracket) : balance (t :: ts) = balance ts + 1 := by
  simp only [balance, List.countP_cons, h, Kind.isOpening, Kind.isClosing]
  simp
  omega

theorem balance_closing (h : t.kind = .closing bracket) : balance (t :: ts) = balance ts - 1 := by
  simp only [balance, List.countP_cons, h, Kind.isOpening, Kind.isClosing]
  simp
  omega

theorem balance_other (h : t.kind.isBracket = false) : balance (t :: ts) = balance ts := by
  have hopening : t.kind.isOpening = false := by
    cases hkind : t.kind <;> simp_all [Kind.isOpening, Kind.isBracket]
  have hclosing : t.kind.isClosing = false := by
    cases hkind : t.kind <;> simp_all [Kind.isClosing, Kind.isBracket]
  simp [balance, hopening, hclosing]

end Token

namespace Cursor

open Token (balance balance_nil balance_opening balance_closing balance_other)

variable {t : Token} {ts : List Token} {depth : Nat} {c : Cursor}

theorem balance_afterGroup? (h : afterGroup? depth ts = some c) :
    balance ts = balance c.rest - (depth + 1) := by
  induction ts generalizing depth with
  | nil => simp [afterGroup?] at h
  | cons t ts ih =>
      rcases t.kind.bracket_cases with ⟨bracket, ht⟩ | ⟨bracket, ht⟩ | ht
      · rw [afterGroup?_opening ht] at h
        rw [balance_opening ht, ih h]
        push_cast
        omega
      · rw [balance_closing ht]
        cases depth with
        | zero =>
            rw [afterGroup?_close ht] at h
            cases h
            simp
        | succ depth =>
            rw [afterGroup?_closing ht] at h
            rw [ih h]
            push_cast
            omega
      · rw [afterGroup?_other ht] at h
        rw [balance_other ht, ih h]

theorem balance_of_groups (h : Groups ts c) : balance ts = balance c.rest := by
  obtain ⟨t, us, bracket, rfl, ht, hc⟩ := h
  rw [balance_opening ht, balance_afterGroup? hc]
  simp

/-- The groups that stay open when a declaration in which `depth` groups are open is skipped. -/
def unclosed : Nat → List Token → Nat
  | depth, [] => depth
  | depth, t :: ts =>
      match t.kind, depth with
      | .semicolon, 0 => 0
      | .opening _, depth => unclosed (depth + 1) ts
      | .closing _, 0 => 0
      | .closing _, depth + 1 => unclosed depth ts
      | _, depth => unclosed depth ts

theorem unclosed_opening {bracket : Bracket} (h : t.kind = .opening bracket) :
    unclosed depth (t :: ts) = unclosed (depth + 1) ts := by
  cases depth <;> simp only [unclosed, h]

theorem unclosed_other (h : t.kind.isBracket = false)
    (hsemicolon : t.kind ≠ .semicolon ∨ depth ≠ 0) :
    unclosed depth (t :: ts) = unclosed depth ts := by
  cases depth <;> rw [unclosed.eq_def] <;> dsimp only <;> split <;>
    simp_all [Token.Kind.isBracket]

theorem balance_afterDeclaration (line depth : Nat) (ts : List Token) :
    balance ts = balance (afterDeclaration line depth ts).rest + unclosed depth ts - depth := by
  induction ts generalizing line depth with
  | nil => simp [afterDeclaration, unclosed]
  | cons t ts ih =>
      rcases t.kind.bracket_cases with ⟨bracket, ht⟩ | ⟨bracket, ht⟩ | ht
      · rw [afterDeclaration_opening ht, unclosed_opening ht, balance_opening ht,
          ih t.line (depth + 1)]
        push_cast
        omega
      · cases depth with
        | zero => simp [afterDeclaration_close ht, unclosed, ht]
        | succ depth =>
            have hunclosed : unclosed (depth + 1) (t :: ts) = unclosed depth ts := by
              simp only [unclosed, ht]
            rw [afterDeclaration_closing ht, hunclosed, balance_closing ht, ih t.line depth]
            push_cast
            omega
      · rw [balance_other ht]
        by_cases hend : t.kind = .semicolon ∧ depth = 0
        · obtain ⟨hsemicolon, rfl⟩ := hend
          simp [afterDeclaration_semicolon hsemicolon, unclosed, hsemicolon]
        · have hgoes : t.kind ≠ .semicolon ∨ depth ≠ 0 := Decidable.not_and_iff_not_or_not.mp hend
          rw [afterDeclaration_other ht hgoes, unclosed_other ht hgoes]
          exact ih t.line depth

end Cursor

namespace TypeExpr

open Cursor
open Token (balance balance_opening balance_closing balance_other)

variable {t : Token} {ts : List Token} {depth : Nat} {c d : Cursor}

/-- The closing brackets that close nothing in a length in which `depth` groups are open. -/
def straysInLength : Nat → List Token → Nat
  | _, [] => 0
  | depth, t :: ts =>
      match t.kind, depth with
      | .closing .square, 0 => 0
      | .opening _, depth => straysInLength (depth + 1) ts
      | .closing _, 0 => straysInLength 0 ts + 1
      | .closing _, depth + 1 => straysInLength depth ts
      | _, depth => straysInLength depth ts

theorem straysInLength_opening {bracket : Bracket} (h : t.kind = .opening bracket) :
    straysInLength depth (t :: ts) = straysInLength (depth + 1) ts := by
  cases depth <;> simp only [straysInLength, h]

theorem straysInLength_closing {bracket : Bracket} (h : t.kind = .closing bracket) :
    straysInLength (depth + 1) (t :: ts) = straysInLength depth ts := by
  simp only [straysInLength, h]

theorem straysInLength_stray {bracket : Bracket} (h : t.kind = .closing bracket)
    (hbracket : bracket ≠ .square) : straysInLength 0 (t :: ts) = straysInLength 0 ts + 1 := by
  simp only [straysInLength, h]

theorem straysInLength_other (h : t.kind.isBracket = false) :
    straysInLength depth (t :: ts) = straysInLength depth ts := by
  cases depth <;> rw [straysInLength.eq_def] <;> dsimp only <;> split <;>
    simp_all [Token.Kind.isBracket]

theorem balance_afterLength? (h : afterLength? depth ts = some c) :
    balance ts = balance c.rest - (depth + 1) - straysInLength depth ts := by
  induction ts generalizing depth with
  | nil => simp [afterLength?] at h
  | cons t ts ih =>
      rcases t.kind.bracket_cases with ⟨bracket, ht⟩ | ⟨bracket, ht⟩ | ht
      · rw [afterLength?_opening ht] at h
        rw [balance_opening ht, straysInLength_opening ht, ih h]
        push_cast
        omega
      · rw [balance_closing ht]
        cases depth with
        | zero =>
            by_cases hbracket : bracket = .square
            · subst hbracket
              rw [afterLength?_close ht] at h
              cases h
              simp [straysInLength, ht]
            · rw [afterLength?_closing ht (.inl hbracket)] at h
              rw [straysInLength_stray ht hbracket, ih h]
              push_cast
              omega
        | succ depth =>
            rw [afterLength?_closing ht (.inr (by simp))] at h
            rw [straysInLength_closing ht, ih h]
            push_cast
            omega
      · rw [afterLength?_other ht] at h
        rw [balance_other ht, straysInLength_other ht, ih h]

theorem balance_of_readsMember {name : String} {type : TypeExpr}
    (h : ReadsMember name c type d) : balance c.rest = balance d.rest := by
  cases h with
  | alone => rfl
  | member ht hu => rw [balance_other (by rw [ht]; rfl), balance_other (by rw [hu]; rfl)]

theorem afterLength?_member {name : String} {type : TypeExpr} (h : ReadsMember name c type d) :
    afterLength? 0 c.rest = afterLength? 0 d.rest := by
  cases h with
  | alone => rfl
  | member ht hu => rw [afterLength?_other (by rw [ht]; rfl), afterLength?_other (by rw [hu]; rfl)]

theorem afterLength?_of_readsLength {length : TypeExpr} (h : ReadsLength ts length c) :
    afterLength? 0 ts = some c := by
  cases h with
  | int ht he | counted ht he =>
      rw [afterLength?_other (by rw [ht]; rfl)]
      exact he.1
  | name ht hm he =>
      have hmember := afterLength?_member hm
      rw [afterLength?_other (by rw [ht]; rfl)]
      exact hmember.trans he.1
  | computed _ he => exact he.1

/-- The closing brackets that close nothing in the lengths of a type expression. -/
def strays : List Token → Nat
  | [] => 0
  | t :: ts =>
      match t.kind with
      | .star | .opening .round => strays ts
      | .opening .square =>
          match h : afterLength? 0 ts with
          | some c =>
              have := length_of_afterLength? h
              straysInLength 0 ts + strays c.rest
          | none => 0
      | .arrow => strays ts.tail
      | .keyword .chan => if nextIs .arrow ts then strays ts.tail else strays ts
      | .keyword .map =>
          match read ts.tail with
          | .ok (_, c) => strays ts.tail + strays c.1.rest.tail
          | .error _ => 0
      | .keyword .func =>
          match h : afterGroup? 0 ts.tail with
          | some c =>
              have := length_of_afterGroup? h
              if nextIs (.opening .round) c.rest then 0 else strays c.rest
          | none => 0
      | _ => 0
termination_by ts => ts.length
decreasing_by
  all_goals simp only [List.length_tail, List.length_cons] at *
  all_goals grind

theorem strays_array (ht : t.kind = .opening .square) (h : afterLength? 0 ts = some c) :
    strays (t :: ts) = straysInLength 0 ts + strays c.rest := by
  rw [strays]
  simp only [ht]
  split
  · rename_i d hd
    rw [h] at hd
    cases hd
    rfl
  · rename_i hnone
    rw [h] at hnone
    cases hnone

theorem strays_procedure (ht : t.kind = .keyword .func) (h : Groups ts c) :
    strays (t :: ts) = if nextIs (.opening .round) c.rest then 0 else strays c.rest := by
  obtain ⟨u, us, bracket, rfl, -, hend⟩ := h
  rw [strays]
  simp only [ht, List.tail_cons]
  split
  · rename_i d hd
    rw [hend] at hd
    cases hd
    rfl
  · rename_i hnone
    rw [hend] at hnone
    cases hnone

theorem strays_of_not_beginsResult (h : ts.head?.any (beginsResult ·.kind) = false) :
    strays ts = 0 := by
  cases ts with
  | nil => rw [strays]
  | cons t ts =>
      rw [strays]
      split <;> simp_all [beginsResult]

theorem balance_of_reads {type : TypeExpr} (h : Reads ts type c) :
    balance ts = balance c.rest - strays ts := by
  induction h with
  | name ht hm =>
      have hmember := balance_of_readsMember hm
      rw [balance_other (by rw [ht]; rfl), strays]
      simpa [ht] using hmember
  | pointer ht _ ih =>
      rw [balance_other (by rw [ht]; rfl), strays]
      simpa only [ht] using ih
  | @slice t u ts _ _ ht hu _ ih =>
      have hclose : afterLength? 0 (u :: ts) = some ⟨u.line, ts⟩ := afterLength?_close hu
      rw [balance_opening ht, balance_closing hu, strays_array ht hclose, ih]
      simp only [straysInLength, hu]
      omega
  | array ht _ hl _ ih =>
      have hend := afterLength?_of_readsLength hl
      rw [balance_opening ht, strays_array ht hend, balance_afterLength? hend, ih]
      push_cast
      omega
  | parens ht _ hu ih =>
      rw [balance_opening ht, ih, balance_closing hu, strays]
      simp only [ht]
      omega
  | receiver ht hu _ ih =>
      rw [balance_other (by rw [ht]; rfl), balance_other (by rw [hu]; rfl), strays]
      simpa only [ht, List.tail_cons] using ih
  | sender ht hu _ ih =>
      rw [balance_other (by rw [ht]; rfl), balance_other (by rw [hu]; rfl), strays]
      simpa [ht, hu] using ih
  | channel ht hu _ ih =>
      rw [balance_other (by rw [ht]; rfl), strays]
      simpa [ht, hu] using ih
  | @map t u v ts us key value line c ht hu hkey hv _ ihKey ihValue =>
      -- `strays` reads the key to find where the value begins.
      obtain ⟨hlength, hread⟩ := read_of_reads hkey
      rw [balance_other (by rw [ht]; rfl), balance_opening hu, ihKey, balance_closing hv, ihValue,
        strays]
      simp only [ht, List.tail_cons, hread]
      push_cast
      omega
  | dynamic ht hg | interface ht hg | struct ht hg =>
      rw [balance_other (by rw [ht]; rfl), balance_of_groups hg, strays]
      simp [ht]
  | procedure ht _ hg hround hresult =>
      rw [balance_other (by rw [ht]; rfl), balance_of_groups hg, strays_procedure ht hg,
        if_neg (by simp [hround]), strays_of_not_beginsResult hresult]
      simp
  | results ht _ hg hround hg' =>
      rw [balance_other (by rw [ht]; rfl), balance_of_groups hg, strays_procedure ht hg,
        if_pos hround, balance_of_groups hg']
      simp
  | result ht _ hg hround _ _ ih =>
      rw [balance_other (by rw [ht]; rfl), balance_of_groups hg, strays_procedure ht hg,
        if_neg (by simp [hround]), ih]

end TypeExpr

/-- Brackets without partners: closing ones in the lengths of arrays, and opening ones of
declarations that are skipped. -/
structure Unpaired where
  closings : Nat
  openings : Nat
deriving DecidableEq, Repr

namespace Unpaired

def none : Unpaired := ⟨0, 0⟩

/-- The brackets of two parts. -/
def add (u v : Unpaired) : Unpaired :=
  ⟨u.closings + v.closings, u.openings + v.openings⟩

/-- How many more of the brackets are opening. -/
def excess (u : Unpaired) : Int :=
  u.openings - u.closings

theorem excess_none : none.excess = 0 :=
  rfl

theorem excess_add (u v : Unpaired) : (u.add v).excess = u.excess + v.excess := by
  simp only [excess, add]
  push_cast
  omega

end Unpaired

open Cursor
open Token (balance balance_nil balance_opening balance_closing balance_other)

namespace Field

variable {ts : List Token} {c d : Cursor} {f : Field}

/-- The closing brackets that close nothing in a field. -/
def strays (ts : List Token) : Nat :=
  match ts with
  | [] => 0
  | t :: ts =>
      if t.kind = .star then TypeExpr.strays (t :: ts)
      else if nextIs .dot ts || ts.head?.any (endsEmbedded ·.kind) then 0
      else
        match readNames t.line ts with
        | .ok (_, c) => TypeExpr.strays c.1.rest
        | .error _ => 0

/-- The closing brackets that close nothing in the fields of a struct. -/
def straysInAll : List Token → Nat
  | [] => 0
  | t :: ts =>
      match t.kind with
      | .semicolon | .comment _ => straysInAll ts
      | .closing .curly => 0
      | _ =>
          match read (t :: ts) with
          | .ok (_, c) => strays (t :: ts) + straysInAll c.1.rest
          | .error _ => 0
termination_by ts => ts.length
decreasing_by
  all_goals grind

theorem balance_of_readsEnd {names : List String} {type : TypeExpr}
    (h : ReadsEnd names type c f d) : balance c.rest = balance d.rest := by
  cases h with
  | tagged ht => rw [balance_other (by rw [ht]; rfl)]
  | plain => rfl

theorem balance_of_readsNames {names : List String} (h : ReadsNames c names d) :
    balance c.rest = balance d.rest := by
  induction h with
  | nil => rfl
  | cons ht hu _ ih =>
      rwa [balance_other (by rw [ht]; rfl), balance_other (by rw [hu]; rfl)]

theorem balance_of_reads (h : Reads ts f c) : balance ts = balance c.rest - strays ts := by
  cases h with
  | pointer hstar hr he =>
      obtain ⟨t, us, rfl, ht⟩ := nextIs_iff.mp hstar
      rw [TypeExpr.balance_of_reads hr, balance_of_readsEnd he, strays, if_pos ht]
  | @qualified t ts first type _ c' _ ht hdot hm he =>
      have hmember := TypeExpr.balance_of_readsMember hm
      rw [balance_other (by rw [ht]; rfl), strays, if_neg (by simp [ht]), if_pos (by simp [hdot])]
      rw [← balance_of_readsEnd he, ← hmember]
      simp
  | @embedded t ts first _ _ ht hdot hend he =>
      rw [balance_other (by rw [ht]; rfl), strays, if_neg (by simp [ht]), if_pos (by simp [hend])]
      rw [← balance_of_readsEnd he]
      simp
  | @named t ts first names type _ c' d' _ ht hdot hend hn hr he =>
      have hnames := balance_of_readsNames hn
      have hread : readNames t.line ts = .ok (names, ⟨c', length_of_readsNames hn⟩) :=
        readNames_eq_ok.mpr hn
      rw [balance_other (by rw [ht]; rfl), strays, if_neg (by simp [ht]),
        if_neg (by simp [hdot, hend]), hread]
      rw [← balance_of_readsEnd he]
      exact hnames.trans (TypeExpr.balance_of_reads hr)

/-- The fields of a struct and its brace close what is open before them, and one group more. -/
theorem balance_of_readsAll {lastLine : Nat} {doc : List Comment} {fields : List Field}
    (h : ReadsAll lastLine doc ts fields c) :
    balance ts = balance c.rest - 1 - straysInAll ts := by
  induction h with
  | semicolon ht _ ih | comment ht _ ih =>
      rw [balance_other (by rw [ht]; rfl), ih, straysInAll]
      simp only [ht]
  | close ht =>
      rw [balance_closing ht, straysInAll]
      simp [ht]
  | @field _ _ ts f _ c _ hf _ ih =>
      obtain ⟨t, us, rfl, ht⟩ := head_of_reads hf
      have hread : read (t :: us) = .ok (f, ⟨c, length_of_reads hf⟩) := read_eq_ok.mpr hf
      have hstrays : straysInAll (t :: us) = strays (t :: us) + straysInAll c.rest := by
        rw [straysInAll]
        rcases ht with ht | ⟨name, ht⟩ <;> simp only [ht, hread]
      rw [balance_of_reads hf, ih, hstrays]
      push_cast
      omega

end Field

namespace Decl

variable {ts : List Token} {c d : Cursor}

/-- The closing brackets that close nothing in what a type name stands for. -/
def straysInBody (ts : List Token) : Nat :=
  if nextIs (.keyword .struct) ts then Field.straysInAll (ts.drop 2) else TypeExpr.strays ts

/-- The brackets without partners in a specification. -/
def unpairedInSpec : List Token → Unpaired
  | [] => .none
  | _ :: ts =>
      if nextIs (.opening .square) ts && hasParameters ts then ⟨0, unclosed 0 ts⟩
      else ⟨straysInBody (dropAssign ts), 0⟩

/-- The brackets without partners in the specifications of a group. -/
def unpairedInGroup (line : Option Nat) : List Token → Unpaired
  | [] => .none
  | t :: ts =>
      match t.kind with
      | .semicolon => unpairedInGroup line ts
      | .comment _ => unpairedInGroup none ts
      | .closing .round => .none
      | _ =>
          match readSpec (line.getD t.line) (t :: ts) with
          | .ok (_, c) => (unpairedInSpec (t :: ts)).add (unpairedInGroup none c.1.rest)
          | .error _ => .none
termination_by ts => ts.length
decreasing_by
  all_goals grind

/-- The brackets without partners in what follows the keyword of a type declaration. -/
def unpaired (line : Nat) (ts : List Token) : Unpaired :=
  if nextIs (.opening .round) ts then unpairedInGroup (some line) ts.tail else unpairedInSpec ts

theorem balance_dropAssign (ts : List Token) : balance (dropAssign ts) = balance ts := by
  cases ts with
  | nil => rfl
  | cons t ts =>
      rw [dropAssign]
      split
      · rename_i ht
        rw [balance_other (by rw [ht]; rfl)]
      · rfl

theorem balance_trailing (c : Cursor) : balance (trailing c).2.rest = balance c.rest := by
  have hdrop : balance (dropLineEnd c.rest) = balance c.rest := by
    cases c.rest with
    | nil => rfl
    | cons t ts =>
        rw [dropLineEnd]
        split
        · rename_i ht
          simp only [Token.isLineEnd, Bool.and_eq_true, beq_iff_eq] at ht
          rw [balance_other (by rw [ht.1]; rfl)]
        · rfl
  unfold trailing
  split
  · rename_i comment d h
    obtain ⟨t, us, text, hts, ht, -, -, rfl⟩ := commentOn?_eq_some.mp h
    rw [← hdrop, hts, balance_other (by rw [ht]; rfl)]
  · rfl

theorem balance_of_readsBody {name : String} {line : Nat} {decl : Decl}
    (h : ReadsBody name line ts decl c) : balance ts = balance c.rest - straysInBody ts := by
  cases h with
  | record ht hu hf =>
      rw [balance_other (by rw [ht]; rfl), balance_opening hu, Field.balance_of_readsAll hf,
        straysInBody, if_pos (by simp [ht])]
      simp only [List.drop_succ_cons, List.drop_zero]
      omega
  | type hstruct hr =>
      rw [straysInBody, if_neg (by simp [hstruct])]
      exact TypeExpr.balance_of_reads hr

theorem balance_of_readsSpec {line : Nat} {node : Node} (h : ReadsSpec line ts node c) :
    balance ts = balance c.rest + (unpairedInSpec ts).excess := by
  cases h with
  | @generic t ts name ht hparameters =>
      rw [balance_other (by rw [ht]; rfl), balance_afterDeclaration t.line 0 ts, unpairedInSpec,
        if_pos hparameters]
      simp [Unpaired.excess]
  | decl ht hparameters hb _ =>
      rw [balance_other (by rw [ht]; rfl), ← balance_dropAssign, balance_of_readsBody hb,
        balance_trailing, unpairedInSpec, if_neg (by simp [hparameters])]
      simp [Unpaired.excess]
      omega

theorem balance_of_readsGroup {line : Option Nat} {nodes : List Node}
    (h : ReadsGroup line ts nodes c) :
    balance ts = balance c.rest - 1 + (unpairedInGroup line ts).excess := by
  induction h with
  | semicolon ht _ ih | comment ht _ ih =>
      rw [balance_other (by rw [ht]; rfl), ih, unpairedInGroup]
      simp only [ht]
  | close ht =>
      rw [balance_closing ht, unpairedInGroup]
      simp [ht, Unpaired.excess_none]
  | @spec line t ts node _ c _ hs _ ih =>
      obtain ⟨u, us, name, hu, ht⟩ := head_of_readsSpec hs
      cases hu
      have hread : readSpec (line.getD t.line) (t :: ts) =
          .ok (node, ⟨c, length_of_readsSpec hs⟩) :=
        readSpec_eq_ok.mpr hs
      have hunpaired : unpairedInGroup line (t :: ts) =
          (unpairedInSpec (t :: ts)).add (unpairedInGroup none c.rest) := by
        rw [unpairedInGroup]
        simp only [ht, hread]
      rw [balance_of_readsSpec hs, ih, hunpaired, Unpaired.excess_add]
      omega

theorem balance_of_reads {line : Nat} {nodes : List Node} (h : Reads line ts nodes c) :
    balance ts = balance c.rest + (unpaired line ts).excess := by
  cases h with
  | group ht hg =>
      rw [balance_opening ht, balance_of_readsGroup hg, unpaired, if_pos (by simp [ht]),
        List.tail_cons]
      omega
  | single hs =>
      obtain ⟨t, us, name, rfl, ht⟩ := head_of_readsSpec hs
      rw [unpaired, if_neg (by simp [ht])]
      exact balance_of_readsSpec hs

end Decl

namespace Node

variable {ts : List Token} {nodes : List Node}

/-- The brackets without partners in the tokens of a source text. -/
def unpaired : List Token → Unpaired
  | [] => .none
  | t :: ts =>
      match t.kind with
      | .semicolon | .comment _ => unpaired ts
      | .keyword .package => unpaired ts.tail
      | .keyword .type =>
          match Decl.read t.line ts with
          | .ok (_, c) => (Decl.unpaired t.line ts).add (unpaired c.1.rest)
          | .error _ => .none
      | .keyword .imports | .keyword .func | .keyword .var | .keyword .const =>
          Unpaired.add ⟨0, unclosed 0 ts⟩ (unpaired (afterFirst t ts).skipDeclaration.1.rest)
      | _ => .none
termination_by ts => ts.length
decreasing_by
  all_goals grind

theorem balance_of_readsAll (h : ReadsAll ts nodes) : balance ts = (unpaired ts).excess := by
  induction h with
  | nil =>
      rw [unpaired]
      rfl
  | semicolon ht _ ih | comment ht _ ih =>
      rw [balance_other (by rw [ht]; rfl), ih, unpaired]
      simp only [ht]
  | package ht hu _ ih =>
      rw [balance_other (by rw [ht]; rfl), balance_other (by rw [hu]; rfl), ih, unpaired]
      simp only [ht, List.tail_cons]
  | @type t ts nodes _ c ht hd _ ih =>
      have hread : Decl.read t.line ts = .ok (nodes, ⟨c, Decl.length_of_reads hd⟩) :=
        Decl.read_eq_ok.mpr hd
      rw [balance_other (by rw [ht]; rfl), Decl.balance_of_reads hd, ih, unpaired]
      simp only [ht, hread, Unpaired.excess_add]
      omega
  | @skipped t ts nodes ht _ ih =>
      have hunpaired : unpaired (t :: ts) =
          Unpaired.add ⟨0, unclosed 0 ts⟩ (unpaired (afterDeclaration t.line 0 ts).rest) := by
        rw [unpaired]
        rcases beginsSkipped_iff.mp ht with ht | ht | ht | ht <;>
          simp only [ht, After.skipDeclaration, afterFirst]
      have hother : t.kind.isBracket = false := by
        rcases beginsSkipped_iff.mp ht with ht | ht | ht | ht <;> rw [ht] <;> rfl
      rw [balance_other hother, balance_afterDeclaration t.line 0 ts, ih, hunpaired,
        Unpaired.excess_add]
      simp [Unpaired.excess]
      omega

/-- Whether a source text is only read if as many of its tokens open as close a group. -/
def RejectsUnbalanced (source : String) : Prop :=
  ∀ s nodes, Scanned.ofSource source = .ok s → ofSource source = .ok nodes →
    s.tokens.countP (·.kind.isOpening) = s.tokens.countP (·.kind.isClosing)

/-- The brackets of a source text that is read balance, but for those without partners. -/
theorem rejectsUnbalanced_iff (source : String) :
    (∀ s nodes, Scanned.ofSource source = .ok s → ofSource source = .ok nodes →
      s.tokens.countP (·.kind.isOpening) + (unpaired s.tokens).closings =
        s.tokens.countP (·.kind.isClosing) + (unpaired s.tokens).openings) ∧
    (RejectsUnbalanced source ↔
      ∀ s nodes, Scanned.ofSource source = .ok s → ofSource source = .ok nodes →
        (unpaired s.tokens).openings = (unpaired s.tokens).closings) := by
  have hcount : ∀ s nodes, Scanned.ofSource source = .ok s → ofSource source = .ok nodes →
      s.tokens.countP (·.kind.isOpening) + (unpaired s.tokens).closings =
        s.tokens.countP (·.kind.isClosing) + (unpaired s.tokens).openings := by
    intro s nodes hs hnodes
    obtain ⟨s', hs', hread⟩ := bind_eq_ok.mp hnodes
    cases hs.symm.trans hs'
    have hbalance := balance_of_readsAll (readAll_eq_ok.mp hread)
    rw [balance, Unpaired.excess] at hbalance
    omega
  refine ⟨hcount, forall₄_congr fun s nodes hs hnodes => ?_⟩
  have h := hcount s nodes hs hnodes
  omega

/-- A function that the end of the text cuts off is skipped, and a parenthesis that closes nothing
is taken for a length. -/
theorem not_rejectsUnbalanced_cutOff :
    ofSource "func f() \x7b\n" = .ok [.other "func"] ∧
      ¬ RejectsUnbalanced "func f() \x7b\n" ∧ ¬ RejectsUnbalanced "type A [)]int\n" := by
  have hunbalanced {source : String} {nodes : List Node} (hnodes : ofSource source = .ok nodes)
      (hcount : (Scanned.ofSource source).toOption.all
        (fun s => s.tokens.countP (·.kind.isOpening) ≠ s.tokens.countP (·.kind.isClosing)) = true) :
      ¬ RejectsUnbalanced source := by
    intro h
    obtain ⟨s, hs, -⟩ := bind_eq_ok.mp hnodes
    have heq := h s nodes hs hnodes
    simp [hs, Except.toOption, heq] at hcount
  have hcutOff : ofSource "func f() \x7b\n" = .ok [.other "func"] :=
    eq_ok_of_toOption (by decide +kernel)
  have hlength : ofSource "type A [)]int\n" =
      .ok [.decl (.alias ⟨"A", 1, .array (.named "int") TypeExpr.computedLength, [], none⟩)] :=
    eq_ok_of_toOption (by decide +kernel)
  exact ⟨hcutOff, hunbalanced hcutOff (by decide +kernel), hunbalanced hlength (by decide +kernel)⟩

end Node

end DeclBridge
