import Mathlib
import DeclBridge.Proofs.Grammar.Node
import DeclBridge.Proofs.Scan.Erasure
import DeclBridge.Proofs.Scan.Lexeme

/-!
Aliases, which have an equals sign behind their name. The sign says nothing, so that an alias is
read as the type declaration without it, unless the sign and the arrow behind it are scanned as one
operator.
-/

namespace DeclBridge

theorem Token.shape_of_isOperator {c : Char} {cs : List Char} {shape : Shape} {n : Nat}
    (h : extent c cs = .ok (shape, n)) (hc : Reach.isOperator c = true) :
    shape = .comment ∨ shape = .operator := by
  have hother : c.isDigit = false ∧ beginsWord c = false ∧ punctuation? c = none ∧
      ['*', '.', '"', '`', '\''].contains c = false := by
    have hmem := List.contains_iff_mem.mp hc
    have hall := (List.all_eq_true (p := fun c => !c.isDigit && !beginsWord c &&
      (punctuation? c).isNone && ! ['*', '.', '"', '`', '\''].contains c)).mp (by decide) c hmem
    simpa [and_assoc] using hall
  obtain ⟨hdigit, hword, hpunctuation, hquote⟩ := hother
  cases extent_eq_ok.mp h with
  | lineComment | blockComment => exact .inl rfl
  | operator => exact .inr rfl
  | punctuation _ hkind => simp [hpunctuation] at hkind
  | int hnumber => simp [hdigit] at hnumber
  | float hnumber => simp_all [beginsNumber]
  | word hbegins => simp [hword] at hbegins
  | _ => cases hquote

namespace Mark

open Token (extent isName)
open Token.Reach (isSpace isOperator)

variable {p q r : Position} {cs ds : List Char} {marks front : List Mark}

theorem Scans.split (h : Scans p cs front q ds) (h' : Scans p cs marks r []) :
    ∃ back, marks = front ++ back ∧ Scans q ds back r [] := by
  induction h generalizing marks with
  | done => exact ⟨marks, rfl, h'⟩
  | blank hc _ ih =>
      cases h' with
      | blank _ h' => exact ih h'
      | lineBreak => cases hc
      | token hspace => simp [isSpace, hc] at hspace
  | lineBreak _ ih =>
      cases h' with
      | blank hc => cases hc
      | lineBreak h' =>
          obtain ⟨back, rfl, hback⟩ := ih h'
          exact ⟨back, rfl, hback⟩
      | token hspace => cases hspace
  | token hspace hn _ ih =>
      cases h' with
      | blank hc => simp [isSpace, hc] at hspace
      | lineBreak => cases hspace
      | token _ hn' h' =>
          obtain ⟨rfl, rfl⟩ := Prod.mk.inj (Except.ok.inj (hn.symm.trans hn'))
          obtain ⟨back, rfl, hback⟩ := ih h'
          exact ⟨back, rfl, hback⟩

theorem scans_word {word : String} {rest : List Char}
    (h : Token.isWhole .word word.toList = true) (p : Position)
    (hrest : rest.head?.any Token.Reach.continuesWord = false) :
    Scans p (word.toList ++ rest) [token (tokenAt p .word word.toList)]
      (behind p .word word.toList) rest := by
  obtain ⟨c, cs, htext, hn⟩ := Token.isWhole_iff.mp h
  rw [htext]
  exact scans_of_extent p (Token.isSpace_of_extent hn) (Token.extent_word_append hn hrest)

theorem exists_scans_typeName {name : String} (h : isName name = true) :
    ∃ t u q, t.kind = .keyword .type ∧ u.kind = .identifier name ∧
      ∀ c rest, Token.Reach.continuesWord c = false →
        Scans .start ("type ".toList ++ (name.toList ++ c :: rest)) [token t, token u] q
          (c :: rest) := by
  simp only [isName, Bool.and_eq_true, Option.isNone_iff_eq_none] at h
  have hspace : "type ".toList = "type".toList ++ [' '] := by decide
  have hkind : (tokenAt .start .word "type".toList).kind = .keyword .type := by decide
  let p := (behind .start .word "type".toList).shift 1
  refine ⟨_, tokenAt p .word name.toList, behind p .word name.toList, hkind, ?_,
    fun c rest hc => ?_⟩
  · rw [tokenAt, Token.Shape.kind, String.ofList_toList, h.2]
  · rw [hspace, List.append_assoc]
    have htype := @scans_word "type" ([' '] ++ (name.toList ++ c :: rest)) (by decide) .start rfl
    exact htype.trans (.blank rfl (scans_word h.1 p hc))

theorem scans_assign (p : Position) {c : Char} (hc : isOperator c = false) :
    Scans p ('=' :: c :: cs) [token (tokenAt p .operator ['='])] (p.shift 1) (c :: cs) := by
  have hreach : Token.Reach.operator 0 (c :: cs) = 0 := by
    rw [Token.Reach.operator, hc]
    simp
  have hn : extent '=' (c :: cs) = .ok (.operator, 0) :=
    Token.extent_eq_ok.mpr (.operator (by decide) (by simp) hreach)
  exact @scans_of_extent (c :: cs) '=' [] .operator p (by decide) hn

/-- What begins a type is no operator but an arrow. -/
theorem isOperator_of_beginsResult {c : Char} {t : Token} {more : List Mark}
    (h : Scans p (c :: cs) (token t :: more) q ds) (ht : TypeExpr.beginsResult t.kind = true)
    (hblank : isBlank c = false) (harrow : c ≠ '<') : isOperator c = false := by
  refine eq_false_of_ne_true fun hoperator => ?_
  cases h with
  | blank hc => simp [hblank] at hc
  | token _ hn _ =>
      rcases Token.shape_of_isOperator hn hoperator with rfl | rfl
      · cases ht
      · simp only [tokenAt, Token.Shape.kind] at ht
        split at ht
        · cases ht
        · split at ht
          · rename_i htext
            exact harrow (List.cons.inj htext).1
          · cases ht

theorem eq_of_assign {c : Char} {t : Token} {more : List Mark}
    (h : Scans p (c :: cs) (token t :: more) q ds) (ht : t.kind = .assign)
    (hblank : isBlank c = false) : c = '=' := by
  cases h with
  | blank hc => simp [hblank] at hc
  | @token _ _ _ _ _ shape _ _ _ hn _ =>
      simp only [tokenAt, Token.Shape.kind] at ht
      cases shape with
      | operator =>
          simp only at ht
          split at ht
          · rename_i htext
            exact (List.cons.inj htext).1
          · split at ht <;> cases ht
      | word =>
          simp only at ht
          split at ht <;> cases ht
      | exact kind =>
          have hno : Token.Kind.assign ∉ Token.exactKinds := by decide
          exact absurd (ht ▸ Token.mem_exactKinds_of_extent hn) hno
      | _ => cases ht

/-- An equals sign is part of the operator that goes on behind it. -/
theorem exists_operator_of_assign {c : Char} (h : Scans p ('=' :: c :: cs) marks q [])
    (hc : isOperator c = true) (hslash : c ≠ '/') :
    ∃ t text more, marks = token t :: more ∧ t.kind = .operator text := by
  cases h with
  | blank hblank => cases hblank
  | @token _ _ _ _ _ shape n _ _ hn _ =>
      have hassign : Token.Reach.isOperator '=' = true := by decide
      have hhead : extent '=' (c :: cs) = .ok (.operator, Token.Reach.operator 0 (c :: cs)) :=
        Token.extent_eq_ok.mpr (.operator hassign (by simp) rfl)
      obtain ⟨rfl, rfl⟩ := Prod.mk.inj (Except.ok.inj (hhead.symm.trans hn))
      have hge := Token.Reach.operator_ge 1 cs
      obtain ⟨m, hm⟩ : ∃ m, Token.Reach.operator 0 (c :: cs) = m + 1 := by
        rw [Token.Reach.operator, if_neg (by simp [hslash]), if_pos hc]
        exact ⟨_, (Nat.sub_add_cancel hge).symm⟩
      refine ⟨_, String.ofList ('=' :: c :: cs.take m), _, rfl, ?_⟩
      rw [hm, tokenAt, Token.Shape.kind]
      simp

end Mark

namespace Token

open Mark (token)

variable {last : Position} {marks : List Mark} {comments : List Token} {t u v : Token}
  {ts : List Token}

/-- A token that goes on with the statement is the next mark. Comments and the end of the statement
would come in front of it. -/
theorem endStatements_goesOn (hcomments : ∀ u ∈ comments, u.kind.isComment = true)
    (h : endStatements last (some comments) marks = t :: ts) (ht : t.kind ≠ .semicolon)
    (hcomment : t.kind.isComment = false) :
    comments = [] ∧ (∃ more, marks = token t :: more) ∧
      endStatements last none marks = t :: ts := by
  induction marks generalizing comments with
  | nil =>
      cases h
      exact absurd rfl ht
  | cons m marks ih =>
      cases m with
      | lineBreak p =>
          cases h
          exact absurd rfl ht
      | token u =>
          by_cases hu : u.kind.isComment = true
          · cases hbreak : u.innerBreak? with
            | none =>
                simp only [endStatements, hu, hbreak, if_true] at h
                obtain ⟨hnil, -⟩ := ih (by simpa [or_imp, forall_and, hu] using hcomments) h
                simp at hnil
            | some p =>
                simp only [endStatements, hu, hbreak, if_true] at h
                cases h
                exact absurd rfl ht
          · have hu := eq_false_of_ne_true hu
            rw [endStatements_token hu] at h ⊢
            cases comments with
            | nil =>
                cases h
                exact ⟨rfl, ⟨marks, rfl⟩, rfl⟩
            | cons v comments =>
                cases h
                simp [hcomments t] at hcomment

theorem endStatements_typeName {name : String} (ht : t.kind = .keyword .type)
    (hu : u.kind = .identifier name) : endStatements last none (token t :: token u :: marks) =
      t :: u :: endStatements last (some []) marks := by
  rw [endStatements_token (by rw [ht]; rfl), endStatements_token (by rw [hu]; rfl), ht, hu]
  rfl

end Token

theorem TypeExpr.beginsResult_of_reads {ts : List Token} {type : TypeExpr} {c : Cursor}
    (h : Reads ts type c) : ∃ t us, ts = t :: us ∧ beginsResult t.kind = true := by
  cases h with
  | name ht | pointer ht | slice ht | array ht | parens ht | receiver ht | sender ht | channel ht
  | map ht | dynamic ht | interface ht | struct ht | procedure ht | results ht | result ht =>
      exact ⟨_, _, rfl, by rw [ht]; rfl⟩

namespace Decl

variable {line : Nat} {t u : Token} {ts : List Token} {d : Decl} {c : Cursor}

theorem beginsResult_of_readsBody {name : String} (h : ReadsBody name line ts d c) :
    ∃ t us, ts = t :: us ∧ TypeExpr.beginsResult t.kind = true := by
  cases h with
  | record ht => exact ⟨_, _, rfl, by rw [ht]; rfl⟩
  | type _ hr => exact TypeExpr.beginsResult_of_reads hr

theorem head_of_readsSpec_decl (h : ReadsSpec line (t :: ts) (.decl d) c) :
    ∃ u us, ts = u :: us ∧ (u.kind = .assign ∨ TypeExpr.beginsResult u.kind = true) := by
  cases h with
  | decl _ _ hb _ =>
      cases ts with
      | nil => simpa [dropAssign] using beginsResult_of_readsBody hb
      | cons u us =>
          refine ⟨u, us, rfl, ?_⟩
          by_cases hu : u.kind = .assign
          · exact .inl hu
          · rw [dropAssign, if_neg hu] at hb
            obtain ⟨_, _, ⟨⟩, hbegins⟩ := beginsResult_of_readsBody hb
            exact .inr hbegins

theorem readsSpec_assign (h : ReadsSpec line (t :: ts) (.decl d) c) (hu : u.kind = .assign)
    (hts : dropAssign ts = ts) : ReadsSpec line (t :: u :: ts) (.decl d) c := by
  cases h with
  | decl ht _ hb hend =>
      refine .decl ht (by simp [hu]) ?_ hend
      rw [hts] at hb
      rwa [dropAssign, if_pos hu]

theorem not_readsSpec_operator {node : Node} {text : String} (hu : u.kind = .operator text) :
    ¬ ReadsSpec line (t :: u :: ts) node c := by
  intro h
  cases h with
  | generic _ hgeneric => simp [hu] at hgeneric
  | decl _ _ hb _ =>
      rw [dropAssign, if_neg (by simp [hu])] at hb
      obtain ⟨_, _, ⟨⟩, hbegins⟩ := beginsResult_of_readsBody hb
      simp [hu, TypeExpr.beginsResult] at hbegins

end Decl

namespace Node

variable {t u : Token} {ts : List Token} {nodes : List Node} {name : String}

theorem readsAll_typeName (ht : t.kind = .keyword .type) (hu : u.kind = .identifier name) :
    ReadsAll (t :: u :: ts) nodes ↔ ∃ node more c, nodes = node :: more ∧
      Decl.ReadsSpec t.line (u :: ts) node c ∧ ReadsAll c.rest more := by
  constructor
  · intro h
    cases h with
    | type _ hd hmore =>
        cases hd with
        | group hround => simp [hu] at hround
        | single hs => exact ⟨_, _, _, rfl, hs, hmore⟩
    | skipped hskipped => simp [ht, beginsSkipped] at hskipped
    | semicolon hkind | comment hkind | package hkind => simp [ht] at hkind
  · rintro ⟨node, more, c, rfl, hs, hmore⟩
    exact .type ht (.single hs) hmore

theorem exists_ofSource_typeName (hname : Token.isName name = true) :
    ∃ t u q, t.kind = .keyword .type ∧ u.kind = .identifier name ∧
      ∀ c rest source nodes, Token.Reach.continuesWord c = false →
        source.toList = "type ".toList ++ (name.toList ++ c :: rest) →
        (ofSource source = .ok nodes ↔ ∃ marks last, Mark.Scans q (c :: rest) marks last [] ∧
          ReadsAll (t :: u :: Token.endStatements last (some []) marks) nodes) := by
  obtain ⟨t, u, q, ht, hu, hfront⟩ := Mark.exists_scans_typeName hname
  refine ⟨t, u, q, ht, hu, fun c rest source nodes hc hsource => ?_⟩
  have hfront := hfront c rest hc
  constructor
  · intro h
    obtain ⟨s, hs, hnodes⟩ := bind_eq_ok.mp h
    obtain ⟨marks, hmarks, htokens⟩ := Scanned.ofSource_eq_ok.mp hs
    rw [hsource] at hmarks
    obtain ⟨back, rfl, hback⟩ := hfront.split hmarks
    refine ⟨back, s.last, hback, ?_⟩
    rw [← Token.endStatements_typeName ht hu]
    exact htokens ▸ readAll_eq_ok.mp hnodes
  · rintro ⟨marks, last, hmarks, hnodes⟩
    rw [← Token.endStatements_typeName ht hu] at hnodes
    have hmarks := hfront.trans hmarks
    rw [← hsource] at hmarks
    exact bind_eq_ok.mpr ⟨⟨_, last⟩, Scanned.ofSource_eq_ok.mpr ⟨_, hmarks, rfl⟩,
      readAll_eq_ok.mpr hnodes⟩

/-- No declaration begins with an equals sign and an arrow that are one operator. -/
theorem ofSource_operator_ne_ok {source : String} {cs : List Char}
    (hname : Token.isName name = true)
    (hsource : source.toList = "type ".toList ++ (name.toList ++ '=' :: '<' :: cs))
    (nodes : List Node) : ofSource source ≠ .ok nodes := by
  intro h
  obtain ⟨t, u, q, ht, hu, hiff⟩ := exists_ofSource_typeName hname
  obtain ⟨marks, last, hmarks, hnodes⟩ := (hiff '=' _ _ _ (by decide) hsource).mp h
  obtain ⟨v, operator, more, rfl, hv⟩ :=
    Mark.exists_operator_of_assign hmarks (by decide) (by decide)
  rw [Token.endStatements_token (by rw [hv]; rfl)] at hnodes
  obtain ⟨node, _, c, -, hspec, -⟩ := (readsAll_typeName ht hu).mp hnodes
  exact Decl.not_readsSpec_operator hv hspec

/-- An alias is read as the type declaration without its equals sign, unless an arrow follows on
the sign: then it is no declaration. -/
theorem ofSource_alias {text : String} {d : Decl} (hname : Token.isName name = true)
    (hfirst : ∀ c, text.toList.head? = some c → Mark.isBlank c = false ∧ c ≠ '=')
    (h : ofSource ("type " ++ name ++ " " ++ text) = .ok (.decl d :: nodes)) :
    (text.toList.head? ≠ some '<' →
      ofSource ("type " ++ name ++ "=" ++ text) = .ok (.decl d :: nodes)) ∧
    (text.toList.head? = some '<' →
      ∃ e, ofSource ("type " ++ name ++ "=" ++ text) = .error e) := by
  have hplain : ("type " ++ name ++ " " ++ text).toList =
      "type ".toList ++ (name.toList ++ ' ' :: text.toList) := by
    simp
  have halias : ("type " ++ name ++ "=" ++ text).toList =
      "type ".toList ++ (name.toList ++ '=' :: text.toList) := by
    simp
  constructor
  · intro harrow
    obtain ⟨t, u, q, ht, hu, hiff⟩ := exists_ofSource_typeName hname
    obtain ⟨marks, last, hmarks, hnodes⟩ := (hiff ' ' _ _ _ (by decide) hplain).mp h
    obtain ⟨_, _, e, ⟨⟩, hspec, hmore⟩ := (readsAll_typeName ht hu).mp hnodes
    have hscan : Mark.Scans (q.shift 1) text.toList marks last [] := by
      cases hmarks with
      | blank _ hmarks => exact hmarks
      | token hspace => cases hspace
    obtain ⟨v, vs, htokens, hv⟩ := Decl.head_of_readsSpec_decl hspec
    -- Neither a comment nor the end of the statement begins a type.
    obtain ⟨-, ⟨more, rfl⟩, hsame⟩ := Token.endStatements_goesOn (by simp) htokens
      (by rintro hkind; simp [hkind, TypeExpr.beginsResult] at hv)
      (by cases hkind : v.kind <;> simp_all [TypeExpr.beginsResult, Token.Kind.isComment])
    obtain ⟨c, cs, htext⟩ : ∃ c cs, text.toList = c :: cs := by
      refine List.exists_cons_of_ne_nil fun hnil => ?_
      rw [hnil] at hscan
      cases hscan
    rw [htext] at hfirst harrow hscan halias
    obtain ⟨hblank, hother⟩ := hfirst c rfl
    have hassign : v.kind ≠ .assign := fun hv => hother (Mark.eq_of_assign hscan hv hblank)
    have hoperator := Mark.isOperator_of_beginsResult hscan (hv.resolve_left hassign) hblank
      (by simpa using harrow)
    refine (hiff '=' _ _ _ (by decide) halias).mpr
      ⟨_, last, (Mark.scans_assign q hoperator).trans hscan, ?_⟩
    rw [List.singleton_append, Token.endStatements_token rfl]
    refine (readsAll_typeName ht hu).mpr ⟨_, _, e, rfl, ?_, hmore⟩
    change Decl.ReadsSpec _ (u :: _ :: Token.endStatements last none (.token v :: more)) _ _
    rw [htokens] at hspec
    rw [hsame]
    exact Decl.readsSpec_assign hspec rfl (by rw [Decl.dropAssign, if_neg hassign])
  · intro harrow
    obtain ⟨cs, hcs⟩ := List.head?_eq_some_iff.mp harrow
    rw [hcs] at halias
    have hne := ofSource_operator_ne_ok hname halias
    cases hread : ofSource ("type " ++ name ++ "=" ++ text) with
    | error e => exact ⟨e, rfl⟩
    | ok nodes => exact absurd hread (hne nodes)

/-- Fields, a comment and another alias behind the sign. -/
theorem ofSource_alias_struct :
    let text := "struct \x7bA int\x7d // c\ntype Y = <-chan int"
    let nodes : List Node :=
      [.decl (.record ⟨"É", 1, [⟨["A"], .named "int", none, []⟩], [], some ⟨"// c", 1⟩⟩),
        .decl (.alias ⟨"Y", 2, .unsupported "chan", [], none⟩)]
    ofSource ("type " ++ "É" ++ " " ++ text) = .ok nodes ∧
      ofSource ("type " ++ "É" ++ "=" ++ text) = .ok nodes := by
  intro text nodes
  have h : ofSource ("type " ++ "É" ++ " " ++ text) = .ok nodes := by cbv
  have hname : Token.isName "É" = true := by decide
  have hhead : text.toList.head? = some 's' := by decide
  have hfirst : ∀ c, text.toList.head? = some c → Mark.isBlank c = false ∧ c ≠ '=' := by
    intro c hc
    cases hhead.symm.trans hc
    decide
  exact ⟨h, (ofSource_alias hname hfirst h).1 (by simp [hhead])⟩

/-- A receive-only channel is declared without the equals sign only. -/
theorem not_ofSource_alias_receiver :
    ofSource ("type " ++ "X" ++ " " ++ "<-chan int") =
        .ok [.decl (.alias ⟨"X", 1, .unsupported "chan", [], none⟩)] ∧
      ofSource ("type " ++ "X" ++ "=" ++ "<-chan int") =
        .error (.unexpectedToken .type (.operator "=<-") 1) :=
  ⟨by cbv, by cbv⟩

end Node

end DeclBridge
