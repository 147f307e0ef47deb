import DeclBridge.Proofs.Grammar.Agreement
import DeclBridge.Proofs.Scan.Erasure

/-!
Comments in the middle of declarations. A comment on one line changes nothing that is declared, as
long as it does not part the tokens around it; between tokens that it parts it may.
-/

namespace DeclBridge

open Token (Form endStatements)

/-- The comment `c` on one line is a token of the text, between `l` and `r`. In front of it are the
tokens `before`, behind it the tokens `after`. -/
structure Interrupts (l c r : String) (before after : List Token) : Prop where
  isBlock : ['/', '*'] <+: c.toList
  isLine : '\n' ∉ c.toList
  scanned : ∃ marks more p last,
    Mark.Scans .start (l ++ c ++ r).toList marks p (c ++ r).toList ∧
      Mark.Scans p (c ++ r).toList (.token ⟨.comment c, c, p⟩ :: more) last [] ∧
      endStatements last none (marks ++ .token ⟨.comment c, c, p⟩ :: more) =
        before ++ ⟨.comment c, c, p⟩ :: after

/-- If both texts are read, they declare the same types with the same fields. -/
def SameDeclarations (source source' : String) : Prop :=
  ∀ nodes nodes', Node.ofSource source = .ok nodes → Node.ofSource source' = .ok nodes' →
    Node.declared nodes = Node.declared nodes'

namespace Token

variable {f : Form} {t : Token} {before after ts us : List Token}

theorem ofHead_of_kinds (h : us.map kind = ts.map kind) : Form.ofHead us = Form.ofHead ts := by
  cases ts <;> cases us <;> simp_all [Form.ofHead]

theorem sheds_of_kinds (h : us.map kind = ts.map kind) : Sheds f ts us := by
  induction ts generalizing f us with
  | nil =>
      cases List.map_eq_nil_iff.mp h
      exact .nil
  | cons t ts ih =>
      obtain ⟨u, vs, rfl, hu, hvs⟩ := List.map_eq_cons_iff.mp h
      exact .keep hu (ih hvs)

/-- A comment that does not part the tokens around it can be shed. -/
theorem sheds_around (ht : t.kind.isComment = true)
    (hparts : ((before.getLast?.map fun t => Form.ofKind t.kind).getD f).parts (.ofHead after) = false)
    (h : us.map kind = (before ++ after).map kind) : Sheds f (before ++ t :: after) us := by
  induction before generalizing f us with
  | nil =>
      have hhead : Form.ofHead us = Form.ofHead after := ofHead_of_kinds h
      rw [← hhead] at hparts
      exact .drop ht hparts (sheds_of_kinds h)
  | cons v vs ih =>
      obtain ⟨u, us', rfl, hu, hus⟩ := List.map_eq_cons_iff.mp h
      refine .keep hu (ih ?_ hus)
      rw [List.getLast?_cons] at hparts
      cases hvs : vs.getLast? <;> simp_all

end Token

theorem around_unique {t : Token} {before after before' after' : List Token}
    (h : before ++ t :: after = before' ++ t :: after')
    (hcount : (before ++ t :: after).count t = 1) : before = before' ∧ after = after' := by
  have hcount' := hcount
  rw [h] at hcount'
  have hsplit : ∀ u v : List Token, (u ++ t :: v).count t = 1 → t ∉ u ∧ t ∉ v := by
    intro u v huv
    rw [List.count_append, List.count_cons_self] at huv
    exact ⟨List.count_eq_zero.mp (by omega), List.count_eq_zero.mp (by omega)⟩
  rcases List.append_eq_append_iff.mp h with ⟨us, rfl, hus⟩ | ⟨us, rfl, hus⟩
  · cases us with
    | nil =>
        obtain ⟨-, rfl⟩ := List.cons.inj hus
        exact ⟨by simp, rfl⟩
    | cons u us =>
        obtain ⟨rfl, -⟩ := List.cons.inj hus
        exact absurd (by simp) (hsplit _ _ hcount').1
  · cases us with
    | nil =>
        obtain ⟨-, rfl⟩ := List.cons.inj hus
        exact ⟨by simp, rfl⟩
    | cons u us =>
        obtain ⟨rfl, -⟩ := List.cons.inj hus
        exact absurd (by simp) (hsplit _ _ hcount).1

namespace Interrupts

variable {l c r : String} {before after : List Token}

theorem count_eq_one {marks more : List Mark} {p last : Position} {text : List Char} {cs : List Char}
    (hc : c.toList = '/' :: cs) (hfirst : Mark.Scans .start text marks p (c ++ r).toList)
    (hrest : Mark.Scans p (c ++ r).toList (.token ⟨.comment c, c, p⟩ :: more) last []) :
    (endStatements last none (marks ++ .token ⟨.comment c, c, p⟩ :: more)).count
      ⟨.comment c, c, p⟩ = 1 := by
  rw [String.toList_append] at hrest
  obtain ⟨q, hpq, hmore⟩ := Mark.scans_of_comment hc hrest
  have hmarks : Mark.token ⟨.comment c, c, p⟩ ∉ marks :=
    fun hmem => Position.not_before_self p (hfirst.places hmem).2
  have hafter : Mark.token ⟨.comment c, c, p⟩ ∉ more :=
    fun hmem => (hmore.places hmem).1 hpq
  rw [Token.count_endStatements rfl, List.count_append, List.count_cons_self,
    List.count_eq_zero.mpr hmarks, List.count_eq_zero.mpr hafter]
  rfl

/-- The tokens of the text with a space in place of the comment are those around the comment, at
other places. -/
theorem tokens (h : Interrupts l c r before after) :
    ∃ s s' p, Scanned.ofSource (l ++ c ++ r) = .ok s ∧ Scanned.ofSource (l ++ " " ++ r) = .ok s' ∧
      s.tokens = before ++ ⟨.comment c, c, p⟩ :: after ∧
      s'.tokens.map Token.kind = (before ++ after).map Token.kind := by
  obtain ⟨⟨cs, hc⟩, hline, marks, more, p, last, hfirst, hrest, htokens⟩ := h
  have hslash : c.toList = '/' :: '*' :: cs := hc.symm
  have hcount := count_eq_one hslash hfirst hrest
  have hall := hfirst.trans hrest
  have htext : (l ++ c ++ r).toList = l.toList ++ '/' :: '*' :: (cs ++ r.toList) := by
    simp [hslash]
  have hbehind : (c ++ r).toList = '/' :: '*' :: (cs ++ r.toList) := by
    simp [hslash]
  rw [htext, hbehind] at hfirst
  rw [String.toList_append] at hrest
  obtain ⟨q, -, hmore⟩ := Mark.scans_of_comment hslash hrest
  obtain ⟨more', last', hmoved, hcontent⟩ := hmore.move (p.shift 1)
  have hall' := (hfirst.erase r.toList).trans (.blank rfl hmoved)
  have htext' : (l ++ " " ++ r).toList = l.toList ++ ' ' :: r.toList := by
    simp
  rw [← htext'] at hall'
  have hbreak : (⟨.comment c, c, p⟩ : Token).innerBreak? = none := by
    simp [Token.innerBreak?, hline]
  obtain ⟨before', after', htokens', hkinds⟩ :=
    @Token.omits_endStatements last last' none ⟨.comment c, c, p⟩ marks more more' rfl hbreak
      hcontent
  rw [htokens'] at hcount
  -- The comment is one token only, so these are the tokens around it.
  obtain ⟨rfl, rfl⟩ := around_unique (htokens'.symm.trans htokens) hcount
  exact ⟨⟨_, last⟩, ⟨_, last'⟩, p, Scanned.ofSource_eq_ok.mpr ⟨_, hall, rfl⟩,
    Scanned.ofSource_eq_ok.mpr ⟨_, hall', rfl⟩, htokens, hkinds⟩

/-- Every block comment on one line that is among the tokens of a text interrupts the text. -/
theorem exists_of_mem {source : String} {s : Scanned} {t : Token}
    (h : Scanned.ofSource source = .ok s) (ht : t ∈ s.tokens) (hkind : t.kind = .comment c)
    (hblock : ['/', '*'] <+: c.toList) (hline : '\n' ∉ c.toList) :
    ∃ l r before after, source = l ++ c ++ r ∧ s.tokens = before ++ t :: after ∧
      Interrupts l c r before after := by
  obtain ⟨marks, hscans, htokens⟩ := Scanned.ofSource_eq_ok.mp h
  have hmark : .token t ∈ marks := by
    rw [htokens] at ht
    rcases Token.mem_endStatements ht with ht | ht | ⟨p, rfl⟩
    · cases ht
    · exact ht
    · cases hkind
  obtain ⟨first, more, rfl⟩ := List.append_of_mem hmark
  obtain ⟨d, es, shape, n, hfirst, hn, heq, hmore⟩ := hscans.reaches
  have hcomment := Mark.comment_tokenAt hn (heq ▸ hkind)
  have hc : c.toList = d :: es.take n := by
    rw [hcomment] at hblock ⊢
    exact Token.dropReturns_of_block hn hblock
  have ht' : t = ⟨.comment c, c, t.position⟩ := by
    have hlexeme : t.lexeme = String.ofList (d :: es.take n) := congrArg Token.lexeme heq
    rw [← hc, String.ofList_toList] at hlexeme
    rw [← hkind, ← hlexeme]
  obtain ⟨before, after, hafter⟩ := List.append_of_mem ht
  obtain ⟨cs, hcs⟩ := hfirst.suffix
  have hrest : (c ++ String.ofList (es.drop n)).toList = d :: es := by
    simp [hc]
  have htext : (String.ofList cs ++ c ++ String.ofList (es.drop n)).toList = source.toList := by
    rw [String.append_assoc, String.toList_append, hrest, String.toList_ofList, hcs]
  refine ⟨String.ofList cs, String.ofList (es.drop n), before, after,
    (String.toList_inj.mp htext).symm, hafter, hblock, hline, first, more, t.position, s.last, ?_⟩
  rw [← ht', htext, hrest, ← htokens]
  exact ⟨hfirst, hmore, hafter⟩

/-- A comment that does not part the tokens around it changes nothing that is declared. -/
theorem sameDeclarations (h : Interrupts l c r before after)
    (hparts : (Form.ofLast before).parts (.ofHead after) = false) :
    SameDeclarations (l ++ c ++ r) (l ++ " " ++ r) := by
  intro nodes nodes' hnodes hnodes'
  obtain ⟨s, s', p, hs, hs', htokens, hkinds⟩ := h.tokens
  obtain ⟨_, hscanned, hread⟩ := bind_eq_ok.mp hnodes
  obtain ⟨_, hscanned', hread'⟩ := bind_eq_ok.mp hnodes'
  cases hs.symm.trans hscanned
  cases hs'.symm.trans hscanned'
  have hsheds : Token.Sheds .other s.tokens s'.tokens := by
    rw [htokens]
    exact Token.sheds_around rfl hparts hkinds
  obtain ⟨_, hcode⟩ := hsheds.fromCode
  exact Node.readsAll_sheds (Node.readAll_eq_ok.mp hread) (Node.readAll_eq_ok.mp hread') hcode

end Interrupts

/-- A comment without any meaning. -/
def remark : String := "/* c */"

/-- The tokens in front of the comment between two texts and those behind it, if it is a token. -/
def around? (l r : List Char) : Option (List Token × List Token) :=
  let c := remark.toList
  match Mark.marksBefore? (c ++ r).length .start (l ++ (c ++ r)) with
  | none => none
  | some (marks, p) =>
      match Mark.ofText p (c ++ r) with
      | .ok (.token t :: more, last) =>
          let tokens := endStatements last none (marks ++ .token t :: more)
          let i := tokens.idxOf t
          if t = ⟨.comment remark, remark, p⟩ ∧
              tokens = tokens.take i ++ t :: tokens.drop (i + 1) then
            some (tokens.take i, tokens.drop (i + 1))
          else none
      | _ => none

theorem interrupts_of_around? {l r : String} {before after : List Token}
    (h : around? l.toList r.toList = some (before, after)) : Interrupts l remark r before after := by
  unfold around? at h
  dsimp only at h
  split at h
  · cases h
  · rename_i marks p hmarks
    split at h
    · rename_i t more last hmore
      split at h
      · rename_i htokens
        obtain ⟨rfl, htokens⟩ := htokens
        cases h
        have hfirst := Mark.scans_of_marksBefore? hmarks
        rw [← String.toList_append] at hfirst hmore
        rw [← String.toList_append, ← String.append_assoc] at hfirst
        exact ⟨by decide, by decide, marks, more, p, last, hfirst, Mark.scans_of_ofText hmore,
          htokens⟩
      · cases h
    · cases h

/-- What a text declares. -/
def declared? (cs : List Char) : Option (List Decl) :=
  match Mark.ofText .start cs with
  | .error _ => none
  | .ok (marks, last) => (Node.readAll (endStatements last none marks)).toOption.map Node.declared

theorem declared?_eq_some {source : String} {ds : List Decl}
    (h : declared? source.toList = some ds) :
    ∃ nodes, Node.ofSource source = .ok nodes ∧ Node.declared nodes = ds := by
  unfold declared? at h
  split at h
  · cases h
  · rename_i marks last hmarks
    obtain ⟨nodes, hnodes, rfl⟩ := Option.map_eq_some_iff.mp h
    refine ⟨nodes, bind_eq_ok.mpr ⟨⟨_, last⟩, bind_eq_ok.mpr ⟨_, hmarks, rfl⟩, ?_⟩, rfl⟩
    exact eq_ok_of_toOption hnodes

/-- What is declared with and without the comment between two texts, if both can be read. -/
def declarations? (l r : List Char) : Option (List Decl × List Decl) := do
  return (← declared? (l ++ (remark.toList ++ r)), ← declared? (l ++ ' ' :: r))

theorem not_sameDeclarations {l r : String} {ds ds' : List Decl}
    (h : declarations? l.toList r.toList = some (ds, ds')) (hne : ds ≠ ds') :
    ¬ SameDeclarations (l ++ remark ++ r) (l ++ " " ++ r) := by
  obtain ⟨_, hds, h⟩ := Option.bind_eq_some_iff.mp h
  obtain ⟨_, hds', ⟨⟩⟩ := Option.bind_eq_some_iff.mp h
  have htext : (l ++ remark ++ r).toList = l.toList ++ (remark.toList ++ r.toList) := by
    simp
  have htext' : (l ++ " " ++ r).toList = l.toList ++ ' ' :: r.toList := by
    simp
  rw [← htext] at hds
  rw [← htext'] at hds'
  obtain ⟨nodes, hnodes, rfl⟩ := declared?_eq_some hds
  obtain ⟨nodes', hnodes', rfl⟩ := declared?_eq_some hds'
  exact fun hsame => hne (hsame nodes nodes' hnodes hnodes')

/-- Texts around a comment that parts tokens of two forms. -/
structure Parting where
  before : Form
  after : Form
  left : String
  right : String

/-- The comment parts tokens of these forms, and what is declared changes. -/
def Parting.spoils (w : Parting) : Bool :=
  match around? w.left.toList w.right.toList, declarations? w.left.toList w.right.toList with
  | some (before, after), some (ds, ds') =>
      Form.ofLast before = w.before && Form.ofHead after = w.after && ds ≠ ds'
  | _, _ => false

/-- For any two forms that a comment parts a text in which it does. -/
def partings : List Parting :=
  [⟨.name, .name, "type S struct \x7b A ", " B \x7d"⟩,
    ⟨.name, .star, "type S struct \x7b A ", " *B \x7d"⟩,
    ⟨.name, .dot, "type S struct \x7b F [p ", ".N]int \x7d"⟩,
    ⟨.name, .comma, "type A[P ", ", Q any] int"⟩,
    ⟨.name, .tilde, "type A[P ", " ~int] int"⟩,
    ⟨.name, .func, "type A[P ", " func()] int"⟩,
    ⟨.name, .shape, "type A[P ", " interface \x7b\x7d] int"⟩,
    ⟨.name, .opening .square, "type A[P ", " []int] int"⟩,
    ⟨.name, .closing .square, "type S struct \x7b F [N ", "]int \x7d"⟩,
    ⟨.closing .round, .name, "type S struct \x7b F func() ", " B \x7d"⟩,
    ⟨.closing .round, .star, "type S struct \x7b F func() ", " *B \x7d"⟩,
    ⟨.closing .round, .func, "type A func() ", " func() /* d */ type B int;"⟩,
    ⟨.closing .square, .name, "type S struct \x7b F func(] ", " B \x7d"⟩,
    ⟨.closing .square, .star, "type S struct \x7b F func(] ", " *B \x7d"⟩,
    ⟨.closing .square, .func, "type A func(] ", " func() /* d */ type B int;"⟩,
    ⟨.closing .curly, .name, "type S struct \x7b F func(\x7d ", " B \x7d"⟩,
    ⟨.closing .curly, .star, "type S struct \x7b F func(\x7d ", " *B \x7d"⟩,
    ⟨.closing .curly, .func, "type A func(\x7d ", " func() /* d */ type B int;"⟩,
    ⟨.opening .square, .name, "type S struct \x7b F [", "N]int \x7d"⟩,
    ⟨.opening .square, .int, "type S struct \x7b F [", "3]int \x7d"⟩,
    ⟨.opening .square, .ellipsis, "type S struct \x7b F [", "...]int \x7d"⟩,
    ⟨.opening .square, .closing .square, "type S struct \x7b F [", "]int \x7d"⟩,
    ⟨.int, .closing .square, "type S struct \x7b F [3 ", "]int \x7d"⟩,
    ⟨.ellipsis, .closing .square, "type S struct \x7b F [... ", "]int \x7d"⟩,
    ⟨.star, .name, "type A[P *", "Q, R any] int"⟩,
    ⟨.opening .curly, .closing .curly, "type S struct \x7b F interface \x7b ", "\x7d \x7d"⟩]

theorem spoils_of_mem_partings : ∀ w ∈ partings, w.spoils = true := by
  decide +kernel

theorem exists_parting {a b : Form} (h : a.parts b = true) :
    ∃ w ∈ partings, w.before = a ∧ w.after = b := by
  unfold Form.parts at h
  split at h
  case h_10 | h_11 | h_12 =>
    rename_i bracket
    cases bracket <;> simp [partings]
  all_goals simp_all [partings]

theorem exists_of_spoils {w : Parting} (h : w.spoils = true) :
    ∃ before after, Interrupts w.left remark w.right before after ∧
      Form.ofLast before = w.before ∧ Form.ofHead after = w.after ∧
      ¬ SameDeclarations (w.left ++ remark ++ w.right) (w.left ++ " " ++ w.right) := by
  unfold Parting.spoils at h
  split at h
  · rename_i before after ds ds' haround hdeclarations
    simp only [Bool.and_eq_true, decide_eq_true_eq] at h
    obtain ⟨⟨hbefore, hafter⟩, hne⟩ := h
    exact ⟨before, after, interrupts_of_around? haround, hbefore, hafter,
      not_sameDeclarations hdeclarations hne⟩
  · cases h

theorem exists_spoiled {a b : Form} (h : a.parts b = true) :
    ∃ l r before after, Interrupts l remark r before after ∧ Form.ofLast before = a ∧
      Form.ofHead after = b ∧ ¬ SameDeclarations (l ++ remark ++ r) (l ++ " " ++ r) := by
  obtain ⟨w, hw, rfl, rfl⟩ := exists_parting h
  exact ⟨w.left, w.right, exists_of_spoils (spoils_of_mem_partings w hw)⟩

/-- A comment on one line changes nothing that is declared, whatever it says and wherever it stands
between tokens of the two forms, exactly if it does not part them. -/
theorem sameDeclarations_iff (a b : Form) :
    (∀ l c r before after, Interrupts l c r before after → Form.ofLast before = a →
      Form.ofHead after = b → SameDeclarations (l ++ c ++ r) (l ++ " " ++ r)) ↔
        a.parts b = false := by
  constructor
  · intro h
    cases hparts : a.parts b with
    | false => rfl
    | true =>
        obtain ⟨l, r, before, after, hinterrupts, ha, hb, hnot⟩ := exists_spoiled hparts
        exact absurd (h l remark r before after hinterrupts ha hb) hnot
  · rintro hparts l c r before after h rfl rfl
    exact h.sameDeclarations hparts

/-- A comment between the name of a field and its type makes two embedded types of them. -/
theorem not_sameDeclarations_field :
    ∃ before after, Interrupts "type S struct \x7b\nA " remark " B\n\x7d\n" before after ∧
      ¬ SameDeclarations ("type S struct \x7b\nA " ++ remark ++ " B\n\x7d\n")
        ("type S struct \x7b\nA " ++ " " ++ " B\n\x7d\n") := by
  have hspoils : Parting.spoils
      ⟨.name, .name, "type S struct \x7b\nA ", " B\n\x7d\n"⟩ = true := by
    decide +kernel
  obtain ⟨before, after, hinterrupts, -, -, hnot⟩ := exists_of_spoils hspoils
  exact ⟨before, after, hinterrupts, hnot⟩

end DeclBridge
