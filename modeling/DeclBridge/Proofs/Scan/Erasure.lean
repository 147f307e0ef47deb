import DeclBridge.Proofs.Scan.Tokens

/-!
A text in which a space stands for a comment. The scanner reads the same tokens from it, at other
places behind the space, but for the comment.
-/

namespace DeclBridge

namespace Token

namespace Reach

variable {n m : Nat} {c : Char} {cs : List Char}

/-- What is reached in a text is `a`, and it is reached in the first part of the text that ends at
`m`, counted from `n`. -/
def Ends {α : Type} (reach : List Char → α) (a : α) (n m : Nat) (cs : List Char) : Prop :=
  ∃ as bs, cs = as ++ bs ∧ n + as.length = m ∧ reach as = a

theorem Ends.cons {α : Type} {reach reach' : List Char → α} {a : α}
    (h : Ends reach a (n + 1) m cs)
    (hreach : ∀ as bs, cs = as ++ bs → reach as = a → reach' (c :: as) = a) :
    Ends reach' a n m (c :: cs) := by
  obtain ⟨as, bs, hcs, hm, has⟩ := h
  refine ⟨c :: as, bs, by rw [hcs]; rfl, ?_, hreach as bs hcs has⟩
  rw [List.length_cons]
  omega

theorem blockComment_ends (h : blockComment n cs = some m) :
    Ends (blockComment n) (some m) n m cs := by
  fun_induction blockComment n cs with
  | case1 => simp at h
  | case2 n rest =>
      cases h
      exact ⟨['*', '/'], rest, rfl, rfl, rfl⟩
  | case3 n c cs hopen ih =>
      refine (ih h).cons (fun as bs hcs has => ?_)
      rw [blockComment]
      · exact has
      · rintro rest rfl rfl
        exact hopen (rest ++ bs) rfl hcs

theorem quoted_ends (h : quoted n cs = some m) : Ends (quoted n) (some m) n m cs := by
  fun_induction quoted n cs with
  | case1 | case3 | case4 => simp at h
  | case2 n rest =>
      cases h
      exact ⟨['"'], rest, rfl, rfl, rfl⟩
  | case5 n c cs hbreak ih =>
      have hpair : Ends (fun as => quoted n ('\\' :: as)) (some m) (n + 1) m (c :: cs) := by
        refine (ih h).cons (fun as bs hcs has => ?_)
        rw [quoted]
        · exact has
        · exact hbreak
      exact hpair.cons (fun _ _ _ has => has)
  | case6 n c cs hquote hbreak _ hpair ih =>
      refine (ih h).cons (fun as bs hcs has => ?_)
      rw [quoted]
      · exact has
      · exact hquote
      · exact hbreak
      · rintro tail rfl rfl
        exact hpair '\n' (tail ++ bs) rfl hcs
      · rintro d tail rfl rfl
        exact hpair d (tail ++ bs) rfl hcs

theorem raw_ends (h : raw n cs = some m) : Ends (raw n) (some m) n m cs := by
  fun_induction raw n cs with
  | case1 => simp at h
  | case2 n rest =>
      cases h
      exact ⟨['`'], rest, rfl, rfl, rfl⟩
  | case3 n c cs hc ih => exact (ih h).cons (fun as _ _ has => by simpa [raw, hc] using has)

theorem rune_ends (h : rune n cs = some m) : Ends (rune n) (some m) n m cs := by
  fun_induction rune n cs with
  | case1 | case3 => simp at h
  | case2 n rest =>
      cases h
      exact ⟨['\''], rest, rfl, rfl, rfl⟩
  | case4 n c cs ih =>
      have hpair : Ends (fun as => rune n ('\\' :: as)) (some m) (n + 1) m (c :: cs) :=
        (ih h).cons (fun as _ _ has => by simpa [rune] using has)
      exact hpair.cons (fun _ _ _ has => has)
  | case5 n c cs hquote hbreak hpair ih =>
      refine (ih h).cons (fun as bs hcs has => ?_)
      rw [rune]
      · exact has
      · exact hquote
      · exact hbreak
      · rintro d tail rfl rfl
        exact hpair d (tail ++ bs) rfl hcs

theorem getLast?_of_blockComment (h : blockComment n cs = some (n + cs.length)) :
    cs.getLast? = some '/' := by
  fun_induction blockComment n cs with
  | case1 => simp at h
  | case2 n rest =>
      have hrest : rest = [] := by simpa using h
      rw [hrest]
      rfl
  | case3 n c cs _ ih =>
      rw [List.length_cons, ← Nat.add_assoc, Nat.add_right_comm] at h
      rw [List.getLast?_cons, ih h]
      rfl

theorem operator_ge (n : Nat) (cs : List Char) : n ≤ operator n cs := by
  induction cs generalizing n with
  | nil => exact Nat.le_refl _
  | cons c cs ih =>
      rw [operator]
      split
      · exact Nat.le_refl _
      · split
        · exact Nat.le_of_succ_le (ih (n + 1))
        · exact Nat.le_refl _

/-- An operator ends before a comment as it does before a space, unless a slash in front of the
comment makes another comment of it. -/
theorem operator_erase {xs ys : List Char} (h : operator n (cs ++ '/' :: '*' :: xs) = m)
    (hslash : cs.drop (m - n) ≠ ['/']) : operator n (cs ++ ' ' :: ys) = m := by
  induction cs generalizing n with
  | nil => simpa [operator, isOperator] using h
  | cons c cs ih =>
      -- A comment begins at `c` in both texts or in neither: `c` is no slash in front of the comment.
      have hcomment : (c = '/' ∧ ((cs ++ ' ' :: ys).head? = some '/' ∨
            (cs ++ ' ' :: ys).head? = some '*')) ↔
          (c = '/' ∧ ((cs ++ '/' :: '*' :: xs).head? = some '/' ∨
            (cs ++ '/' :: '*' :: xs).head? = some '*')) := by
        cases cs with
        | nil =>
            have hc : c ≠ '/' := by
              rintro rfl
              simp [operator] at h
              simp [← h] at hslash
            simp [hc]
        | cons e es => rfl
      simp only [List.cons_append, operator] at h ⊢
      simp only [hcomment]
      split at h
      · rename_i hyes
        rw [if_pos hyes]
        exact h
      · rename_i hno
        split at h
        · rename_i hoperator
          have hge := operator_ge (n + 1) (cs ++ '/' :: '*' :: xs)
          rw [if_neg hno, if_pos hoperator]
          refine ih h ?_
          rw [h] at hge
          have hdrop : m - n = (m - (n + 1)) + 1 := by omega
          rwa [hdrop, List.drop_succ_cons] at hslash
        · rename_i hoperator
          rw [if_neg hno, if_neg hoperator]
          exact h

/-- A line comment that ends in front of another comment ends with its line. -/
theorem lineComment_erase {xs : List Char} (ys : List Char)
    (h : lineComment n (cs ++ '/' :: xs) = m) (hm : m ≤ n + cs.length) :
    lineComment n (cs ++ ys) = m := by
  rw [lineComment, whileTrue_eq, List.takeWhile_append] at h ⊢
  split at h
  · simp at h
    omega
  · rename_i hline
    rw [if_neg hline]
    exact h

theorem Ends.append {reach : List Char → Option Nat} {xs : List Char} (ys : List Char)
    (h : Ends reach (some m) n m (cs ++ xs)) (hm : m ≤ n + cs.length)
    (happend : ∀ as bs, reach as = some m → reach (as ++ bs) = some m) :
    reach (cs ++ ys) = some m := by
  obtain ⟨as, bs, hcs, hlength, has⟩ := h
  have hle : as.length ≤ cs.length := by omega
  have htake : (cs ++ xs).take as.length = as := by rw [hcs, List.take_left]
  rw [List.take_append_of_le_length hle] at htake
  rw [← List.take_append_drop as.length cs, htake, List.append_assoc]
  exact happend as _ has

end Reach

open Reach

variable {c : Char} {cs xs : List Char} {shape : Shape} {n : Nat}

theorem Shape.dropReturns_prefix (text : List Char) : Shape.dropReturns text <+: text := by
  rw [Shape.dropReturns, ← List.reverse_suffix, List.reverse_reverse]
  exact List.dropWhile_suffix _

theorem Shape.dropReturns_of_getLast? {text : List Char} (h : text.getLast? = some '/') :
    Shape.dropReturns text = text := by
  rw [← List.head?_reverse] at h
  obtain ⟨cs, hcs⟩ := List.head?_eq_some_iff.mp h
  rw [Shape.dropReturns, hcs, List.dropWhile_cons_of_neg (by decide), ← hcs, List.reverse_reverse]

theorem dropReturns_of_block (h : extent c cs = .ok (shape, n))
    (hblock : ['/', '*'] <+: Shape.dropReturns (c :: cs.take n)) :
    Shape.dropReturns (c :: cs.take n) = c :: cs.take n := by
  obtain ⟨es, hes⟩ := hblock.trans (Shape.dropReturns_prefix _)
  obtain ⟨rfl, htake⟩ := List.cons.inj hes
  have hstar : cs.head? = some '*' := by
    cases cs <;> cases n <;> simp_all [eq_comm]
  obtain ⟨rest, rfl⟩ := List.head?_eq_some_iff.mp hstar
  obtain ⟨rfl, hreach⟩ := ofReach_eq_ok.mp h
  obtain ⟨as, bs, rfl, rfl, has⟩ := blockComment_ends hreach
  apply Shape.dropReturns_of_getLast?
  rw [Nat.add_comm, List.take_succ_cons, List.take_left, List.getLast?_cons, List.getLast?_cons,
    getLast?_of_blockComment has]
  rfl

/-- A token in front of a comment is the same in front of a space. -/
theorem extent_erase (ys : List Char) (h : extent c (cs ++ '/' :: '*' :: xs) = .ok (shape, n))
    (hn : n ≤ cs.length) (hslash : cs.drop n ≠ ['/']) :
    extent c (cs ++ ' ' :: ys) = .ok (shape, n) := by
  -- A character other than a slash stands in `cs`, not in the comment.
  have hhead : ∀ e es, e ≠ '/' → cs ++ '/' :: '*' :: xs = e :: es → ∃ es', cs = e :: es' := by
    intro e es he hes
    cases cs with
    | nil => exact absurd (List.cons.inj hes).1.symm he
    | cons e' es' =>
        cases hes
        exact ⟨es', rfl⟩
  have hfirst : ∀ e, isSpace e = false → (cs ++ ' ' :: ys).head? = some e →
      (cs ++ '/' :: '*' :: xs).head? = some e := by
    intro e he hes
    obtain ⟨es, rfl⟩ := List.head?_eq_some_iff.mp (head?_append_space (by decide) he hes)
    rfl
  have hdigit : (cs ++ ' ' :: ys).head?.any Char.isDigit =
      (cs ++ '/' :: '*' :: xs).head?.any Char.isDigit := by
    cases cs <;> rfl
  rw [extent_eq_ok] at h ⊢
  generalize hws : cs ++ '/' :: '*' :: xs = ws at h
  cases h with
  | @lineComment rest _ h =>
      cases cs with
      | nil =>
          -- The slash of the comment would belong to the line comment, which ends before it.
          have hge : 1 ≤ lineComment 1 rest := by
            rw [lineComment, whileTrue_eq]
            exact Nat.le_add_right _ _
          exact absurd (h ▸ hn) (Nat.not_le_of_lt hge)
      | cons e es =>
          cases hws
          refine .lineComment (lineComment_erase _ h ?_)
          rwa [Nat.add_comm, ← List.length_cons]
  | blockComment h =>
      obtain ⟨es, rfl⟩ := hhead _ _ (by decide) hws
      cases hws
      refine .blockComment ((blockComment_ends h).append _ ?_ fun _ _ => blockComment_append _)
      rwa [Nat.add_comm, ← List.length_cons]
  | punctuation _ h => exact .punctuation _ h
  | product =>
      obtain ⟨es, rfl⟩ := hhead _ _ (by decide) hws
      exact .product _
  | star h =>
      rw [← hws] at h
      exact .star fun hassign => h (hfirst _ (by decide) hassign)
  | ellipsis =>
      obtain ⟨es, rfl⟩ := hhead _ _ (by decide) hws
      obtain _ | ⟨e, es⟩ := es
      · cases hws
      · cases hws
        exact .ellipsis _
  | dot hdots h =>
      rw [← hws] at hdots h
      refine .dot (fun hpoint hnext => ?_) (by rw [hdigit]; exact h)
      have hpoint := head?_append_space (by decide) (by decide) hpoint
      obtain ⟨es, rfl⟩ := List.head?_eq_some_iff.mp hpoint
      have hnext := head?_append_space (by decide) (by decide) hnext
      obtain ⟨es', rfl⟩ := List.head?_eq_some_iff.mp hnext
      exact hdots rfl rfl
  | quoted h =>
      subst hws
      exact .quoted ((quoted_ends h).append _ (by simpa using hn) fun _ _ => quoted_append _)
  | raw h =>
      subst hws
      exact .raw ((raw_ends h).append _ (by simpa using hn) fun _ _ => raw_append _)
  | rune h =>
      subst hws
      exact .rune ((rune_ends h).append _ (by simpa using hn) fun _ _ => rune_append _)
  | int hnumber h =>
      rw [← hws, numberExtent_append (by decide)] at h
      exact .int hnumber (by rw [numberExtent_append (by decide)]; exact h)
  | float hnumber h =>
      rw [← hws] at hnumber h
      rw [numberExtent_append (by decide)] at h
      refine .float (by rw [beginsNumber, hdigit]; exact hnumber) ?_
      rw [numberExtent_append (by decide)]
      exact h
  | word hword hplain h =>
      rw [← hws, word, whileTrue_append (by decide)] at h
      exact .word hword hplain (by rw [word, whileTrue_append (by decide)]; exact h)
  | operator hoperator hno h =>
      rw [← hws] at hno h
      refine .operator hoperator ?_ (operator_erase h (by simpa using hslash))
      rintro ⟨hc, hcomment⟩
      exact hno ⟨hc, hcomment.imp (hfirst _ (by decide)) (hfirst _ (by decide))⟩

end Token

namespace Position

variable {p q r : Position}

/-- The first place is in front of the second one in a text. -/
def Before (p q : Position) : Prop :=
  p.line < q.line ∨ p.line = q.line ∧ p.column < q.column

theorem not_before_self (p : Position) : ¬ p.Before p := by
  simp [Before]

theorem Before.trans (h : p.Before q) (h' : ¬ r.Before q) : p.Before r := by
  unfold Before at *
  omega

theorem before_after (p : Position) (c : Char) : p.Before (p.after c) := by
  unfold after shift
  split <;> simp [Before]

theorem not_before_afterAll (p : Position) (cs : List Char) : ¬ (p.afterAll cs).Before p := by
  induction cs generalizing p with
  | nil => exact not_before_self p
  | cons c cs ih =>
      have hfirst := (before_after p c).trans (ih (p.after c))
      rw [afterAll_cons]
      unfold Before at *
      omega

end Position

namespace Mark

open Token (extent extent_le)

variable {p q : Position} {cs ds xs : List Char} {marks : List Mark}

theorem Scans.length_le (h : Scans p cs marks q ds) : ds.length ≤ cs.length := by
  induction h with
  | done => exact Nat.le_refl _
  | blank _ _ ih | lineBreak _ ih => exact Nat.le_succ_of_le ih
  | token _ _ _ ih =>
      refine Nat.le_succ_of_le (Nat.le_trans ih ?_)
      rw [List.length_drop]
      exact Nat.sub_le _ _

theorem Scans.suffix (h : Scans p cs marks q ds) : ds <:+ cs := by
  induction h with
  | done => exact List.suffix_rfl
  | blank _ _ ih | lineBreak _ ih => exact ih.trans (List.suffix_cons _ _)
  | token _ _ _ ih => exact (ih.trans (List.drop_suffix _ _)).trans (List.suffix_cons _ _)

/-- The marks in front of the last `n` characters of a text, and the place where these begin, if
none of the marks goes on there. -/
def marksBefore? (n : Nat) (p : Position) : List Char → Option (List Mark × Position)
  | [] => if n = 0 then some ([], p) else none
  | c :: cs =>
      if cs.length + 1 = n then some ([], p)
      else if isBlank c then marksBefore? n (p.shift 1) cs
      else if c = '\n' then do
        let (marks, q) ← marksBefore? n ⟨p.line + 1, 1⟩ cs
        return (lineBreak (p.shift 1) :: marks, q)
      else
        match extent c cs with
        | .error _ => none
        | .ok (shape, m) => do
            let text := c :: cs.take m
            let (marks, q) ← marksBefore? n (behind p shape text) (cs.drop m)
            return (token (tokenAt p shape text) :: marks, q)
termination_by cs => cs.length
decreasing_by
  all_goals grind

theorem exists_scans_of_marksBefore? {n : Nat} (h : marksBefore? n p cs = some (marks, q)) :
    ∃ ds, Scans p cs marks q ds ∧ ds.length = n := by
  fun_induction marksBefore? n p cs generalizing marks with
  | case1 p hn =>
      cases h
      exact ⟨[], .done, hn.symm⟩
  | case2 => cases h
  | case3 p c cs hn =>
      cases h
      exact ⟨c :: cs, .done, hn⟩
  | case4 p c cs _ hc ih =>
      obtain ⟨ds, hscans, hlength⟩ := ih h
      exact ⟨ds, .blank hc hscans, hlength⟩
  | case5 p cs _ hc ih =>
      obtain ⟨⟨more, r⟩, hmore, ⟨⟩⟩ := Option.bind_eq_some_iff.mp h
      obtain ⟨ds, hscans, hlength⟩ := ih hmore
      exact ⟨ds, .lineBreak hscans, hlength⟩
  | case6 => cases h
  | case7 p c cs _ hc hbreak shape m hm =>
      rename_i ih
      obtain ⟨⟨more, r⟩, hmore, ⟨⟩⟩ := Option.bind_eq_some_iff.mp h
      obtain ⟨ds, hscans, hlength⟩ := ih hmore
      have hspace : Token.Reach.isSpace c = false := by
        simp [Token.Reach.isSpace, hbreak, eq_false_of_ne_true hc]
      exact ⟨ds, .token hspace hm hscans, hlength⟩

theorem scans_of_marksBefore? (h : marksBefore? ds.length p (cs ++ ds) = some (marks, q)) :
    Scans p (cs ++ ds) marks q ds := by
  obtain ⟨es, hscans, hlength⟩ := exists_scans_of_marksBefore? h
  have hsuffix := List.suffix_of_suffix_length_le hscans.suffix (List.suffix_append cs ds)
    (Nat.le_of_eq hlength)
  rwa [hsuffix.eq_of_length hlength] at hscans

theorem before_behind (p : Position) (shape : Token.Shape) (c : Char) (cs : List Char) :
    p.Before (behind p shape (c :: cs)) := by
  unfold behind
  split
  · simp [Position.Before, Position.shift]
  · exact (Position.before_after p c).trans (Position.not_before_afterAll _ cs)

theorem Scans.not_before (h : Scans p cs marks q ds) : ¬ q.Before p := by
  induction h with
  | done => exact Position.not_before_self _
  | blank _ _ ih | lineBreak _ ih =>
      simp only [Position.Before, Position.shift] at ih ⊢
      omega
  | @token p q c cs ds shape n marks _ _ _ ih =>
      have hfirst := (before_behind p shape c (cs.take n)).trans ih
      unfold Position.Before at *
      omega

/-- The tokens of a text are written in front of its end, and not in front of its beginning. -/
theorem Scans.places (h : Scans p cs marks q ds) {t : Token} (ht : .token t ∈ marks) :
    ¬ t.position.Before p ∧ t.position.Before q := by
  induction h with
  | done => cases ht
  | blank _ _ ih =>
      obtain ⟨hfirst, hlast⟩ := ih ht
      refine ⟨?_, hlast⟩
      simp only [Position.Before, Position.shift] at hfirst ⊢
      omega
  | lineBreak _ ih =>
      obtain ht | ⟨_, ht⟩ := ht
      obtain ⟨hfirst, hlast⟩ := ih ht
      refine ⟨?_, hlast⟩
      simp only [Position.Before] at hfirst ⊢
      omega
  | @token p q c cs ds shape n marks _ _ h ih =>
      have hfirst := before_behind p shape c (cs.take n)
      obtain _ | ⟨_, ht⟩ := ht
      · exact ⟨Position.not_before_self p, hfirst.trans h.not_before⟩
      · obtain ⟨hnext, hlast⟩ := ih ht
        refine ⟨?_, hlast⟩
        unfold Position.Before at *
        omega

/-- The slash of a comment is not read as the second one of a line comment. -/
theorem not_scans_slash (h : Scans p ('/' :: '/' :: xs) marks q ('/' :: xs)) : False := by
  generalize hcs : '/' :: '/' :: xs = cs at h
  generalize hds : '/' :: xs = ds at h
  cases h with
  | done => simp [← hds] at hcs
  | blank hc =>
      cases hcs
      simp [isBlank] at hc
  | lineBreak => cases hcs
  | token _ hn h =>
      cases hcs
      obtain ⟨-, hn⟩ := Prod.mk.inj (Except.ok.inj hn)
      have hlength := h.length_le
      rw [← hn, Token.Reach.lineComment, Token.Reach.whileTrue_eq, ← hds, List.length_drop] at hlength
      simp only [List.length_cons] at hlength
      omega

/-- The scanner comes to a space as it comes to the comment in whose place it stands. -/
theorem Scans.erase (ys : List Char)
    (h : Scans p (cs ++ '/' :: '*' :: xs) marks q ('/' :: '*' :: xs)) :
    Scans p (cs ++ ' ' :: ys) marks q (' ' :: ys) := by
  generalize hzs : cs ++ '/' :: '*' :: xs = zs at h
  generalize hds : '/' :: '*' :: xs = ds at h
  induction h generalizing cs with
  | done =>
      rw [hds, List.append_left_eq_self] at hzs
      rw [hzs]
      exact .done
  | blank hc h ih =>
      cases cs with
      | nil =>
          cases hzs
          simp [isBlank] at hc
      | cons e es =>
          cases hzs
          exact .blank hc (ih rfl hds)
  | lineBreak h ih =>
      cases cs with
      | nil => cases hzs
      | cons e es =>
          cases hzs
          exact .lineBreak (ih rfl hds)
  | @token p q c zs ds shape n marks hc hn h ih =>
      have hlength := h.length_le
      rw [List.length_drop] at hlength
      cases cs with
      | nil =>
          cases hzs
          -- A token that begins with the comment would end behind it.
          rw [← hds] at hlength
          simp only [List.length_cons] at hlength
          omega
      | cons e es =>
          cases hzs
          have hle : n ≤ es.length := by
            rw [← hds, List.append_eq, List.length_append] at hlength
            simp only [List.length_cons] at hlength
            omega
          have hrest : (es ++ '/' :: '*' :: xs).drop n = es.drop n ++ '/' :: '*' :: xs :=
            List.drop_append_of_le_length hle
          -- A slash in front of the comment would make a line comment of it.
          have hslash : es.drop n ≠ ['/'] := by
            intro hslash
            rw [List.append_eq, hrest, hslash, ← hds] at h
            exact not_scans_slash h
          have htake : (es ++ '/' :: '*' :: xs).take n = (es ++ ' ' :: ys).take n := by
            rw [List.take_append_of_le_length hle, List.take_append_of_le_length hle]
          have h' := ih hrest.symm hds
          rw [← List.drop_append_of_le_length hle] at h'
          rw [List.append_eq, htake] at h' ⊢
          exact .token hc (Token.extent_erase ys hn hle hslash) h'

/-- Behind a comment the scanner goes on where the text of the comment ends. -/
theorem scans_of_comment {c : String} {cs ds es : List Char} {more : List Mark}
    (hc : c.toList = '/' :: cs)
    (h : Scans p (c.toList ++ ds) (.token ⟨.comment c, c, p⟩ :: more) q es) :
    ∃ r, p.Before r ∧ Scans r ds more q es := by
  rw [hc] at h
  generalize ht : (⟨.comment c, c, p⟩ : Token) = t at h
  cases h with
  | blank hblank => simp [isBlank] at hblank
  | @token _ _ _ _ _ shape n _ _ hn h =>
      have hlexeme : '/' :: (cs ++ ds).take n = c.toList := by
        have hlexeme := congrArg (String.toList ∘ Token.lexeme) ht
        simpa [tokenAt] using hlexeme.symm
      have htake : (cs ++ ds).take n = cs := (List.cons.inj (hlexeme.trans hc)).2
      have hdrop : (cs ++ ds).drop n = ds := by
        have hall := List.take_append_drop n (cs ++ ds)
        rw [htake] at hall
        exact List.append_cancel_left hall
      rw [List.append_eq, hdrop] at h
      exact ⟨_, before_behind .., h⟩

/-- The scanner comes to every token of a text. -/
theorem Scans.reaches {before more : List Mark} {t : Token}
    (h : Scans p cs (before ++ .token t :: more) q ds) :
    ∃ c es shape n, Scans p cs before t.position (c :: es) ∧ extent c es = .ok (shape, n) ∧
      t = tokenAt t.position shape (c :: es.take n) ∧
      Scans t.position (c :: es) (.token t :: more) q ds := by
  generalize hmarks : before ++ .token t :: more = marks at h
  induction h generalizing before with
  | done => simp at hmarks
  | blank hc _ ih =>
      obtain ⟨c, es, shape, n, hbefore, hn, ht, hmore⟩ := ih hmarks
      exact ⟨c, es, shape, n, .blank hc hbefore, hn, ht, hmore⟩
  | lineBreak _ ih =>
      obtain _ | ⟨m, before⟩ := before
      · cases hmarks
      · obtain ⟨rfl, hrest⟩ := List.cons.inj hmarks
        obtain ⟨c, es, shape, n, hbefore, hn, ht, hmore⟩ := ih hrest
        exact ⟨c, es, shape, n, .lineBreak hbefore, hn, ht, hmore⟩
  | token hc hm h ih =>
      obtain _ | ⟨m, before⟩ := before
      · cases hmarks
        exact ⟨_, _, _, _, .done, hm, rfl, .token hc hm h⟩
      · obtain ⟨rfl, hrest⟩ := List.cons.inj hmarks
        obtain ⟨c, es, shape, n, hbefore, hn, ht, hmore⟩ := ih hrest
        exact ⟨c, es, shape, n, .token hc hm hbefore, hn, ht, hmore⟩

/-- What a mark is, wherever it stands. -/
def content : Mark → Option (Token.Kind × String)
  | lineBreak _ => none
  | token t => some (t.kind, t.lexeme)

/-- The marks of a text are the same at every place. -/
theorem Scans.move (p' : Position) (h : Scans p cs marks q ds) :
    ∃ marks' q', Scans p' cs marks' q' ds ∧ marks'.map content = marks.map content := by
  induction h generalizing p' with
  | done => exact ⟨[], p', .done, rfl⟩
  | blank hc _ ih =>
      obtain ⟨marks', q', h, hmarks⟩ := ih (p'.shift 1)
      exact ⟨marks', q', .blank hc h, hmarks⟩
  | lineBreak _ ih =>
      obtain ⟨marks', q', h, hmarks⟩ := ih ⟨p'.line + 1, 1⟩
      exact ⟨_, q', .lineBreak h, by simp [content, hmarks]⟩
  | @token p q c cs ds shape n marks hc hn _ ih =>
      obtain ⟨marks', q', h, hmarks⟩ := ih (behind p' shape (c :: cs.take n))
      exact ⟨_, q', .token hc hn h, by simp [content, tokenAt, hmarks]⟩

theorem content_eq_none {m : Mark} : m.content = none ↔ ∃ p, m = lineBreak p := by
  cases m <;> simp [content]

theorem content_eq_some {m : Mark} {t : Token} :
    m.content = content (token t) ↔ ∃ u, m = token u ∧ u.kind = t.kind ∧ u.lexeme = t.lexeme := by
  cases m <;> simp [content]

end Mark

namespace Token

open Mark (content)

variable {last last' : Position} {pending pending' : Option (List Token)} {marks marks' : List Mark}
  {t u v : Token} {ts us : List Token}

theorem innerBreak?_isSome (h : u.lexeme = t.lexeme) :
    u.innerBreak?.isSome = t.innerBreak?.isSome := by
  simp only [innerBreak?, h]
  split <;> rfl

@[simp]
theorem kind_lineEndBefore (comments : List Token) (p : Position) :
    (lineEndBefore comments p).kind = .semicolon := rfl

/-- What a token is, wherever it stands. -/
def face (t : Token) : Kind × String :=
  (t.kind, t.lexeme)

@[simp]
theorem face_lineEndBefore (comments : List Token) (p : Position) :
    (lineEndBefore comments p).face = (.semicolon, "\n") := rfl

/-- What the tokens are depends on the marks, not on their places. -/
theorem faces_endStatements (hmarks : marks'.map content = marks.map content)
    (hpending : pending'.map (List.map face) = pending.map (List.map face)) :
    (endStatements last' pending' marks').map face =
      (endStatements last pending marks).map face := by
  -- What a mark is decides between the cases, so both texts go through the same ones.
  fun_induction endStatements last pending marks generalizing pending' marks' with
  | case1 =>
      cases pending' <;> cases marks' <;> simp_all [endStatements]
  | case2 comments =>
      cases pending' <;> cases marks' <;> simp_all [endStatements]
  | case3 p marks ih =>
      obtain ⟨m, more, rfl, hm, hmore⟩ := List.map_eq_cons_iff.mp hmarks
      obtain ⟨p', rfl⟩ := Mark.content_eq_none.mp hm
      cases pending' with
      | none => simpa only [endStatements] using ih hmore rfl
      | some => simp at hpending
  | case4 comments p marks ih =>
      obtain ⟨m, more, rfl, hm, hmore⟩ := List.map_eq_cons_iff.mp hmarks
      obtain ⟨p', rfl⟩ := Mark.content_eq_none.mp hm
      cases pending' with
      | none => simp at hpending
      | some comments' =>
          have hcomments : comments'.map face = comments.map face := by simpa using hpending
          simp [endStatements, hcomments, ih hmore rfl]
  | case5 t marks ht ih =>
      obtain ⟨m, more, rfl, hm, hmore⟩ := List.map_eq_cons_iff.mp hmarks
      obtain ⟨u, rfl, hkind, hlexeme⟩ := Mark.content_eq_some.mp hm
      have hface : u.face = t.face := Prod.ext hkind hlexeme
      cases pending' with
      | none => simp [endStatements, hkind, hface, ht, ih hmore rfl]
      | some => simp at hpending
  | case6 t marks ht comments hbreak ih =>
      obtain ⟨m, more, rfl, hm, hmore⟩ := List.map_eq_cons_iff.mp hmarks
      obtain ⟨u, rfl, hkind, hlexeme⟩ := Mark.content_eq_some.mp hm
      have hface : u.face = t.face := Prod.ext hkind hlexeme
      have hbreak' : u.innerBreak? = none := by
        simpa [hbreak] using innerBreak?_isSome hlexeme
      cases pending' with
      | none => simp at hpending
      | some comments' =>
          have hcomments : comments'.map face = comments.map face := by simpa using hpending
          simp only [endStatements, hkind, ht, hbreak', if_true]
          exact ih hmore (by simp [hcomments, hface])
  | case7 t marks ht comments q hbreak ih =>
      obtain ⟨m, more, rfl, hm, hmore⟩ := List.map_eq_cons_iff.mp hmarks
      obtain ⟨u, rfl, hkind, hlexeme⟩ := Mark.content_eq_some.mp hm
      have hface : u.face = t.face := Prod.ext hkind hlexeme
      obtain ⟨q', hbreak'⟩ : ∃ q', u.innerBreak? = some q' :=
        Option.isSome_iff_exists.mp (by rw [innerBreak?_isSome hlexeme, hbreak]; rfl)
      cases pending' with
      | none => simp at hpending
      | some comments' =>
          have hcomments : comments'.map face = comments.map face := by simpa using hpending
          simp [endStatements, hkind, hface, ht, hbreak', hcomments, ih hmore rfl]
  | case8 pending t marks ht ih =>
      obtain ⟨m, more, rfl, hm, hmore⟩ := List.map_eq_cons_iff.mp hmarks
      obtain ⟨u, rfl, hkind, hlexeme⟩ := Mark.content_eq_some.mp hm
      have hface : u.face = t.face := Prod.ext hkind hlexeme
      have ht : t.kind.isComment = false := eq_false_of_ne_true ht
      have hwaiting : (pending'.getD []).map face = (pending.getD []).map face := by
        cases pending' <;> cases pending <;> simp_all
      rw [endStatements_token (by rw [hkind, ht]), hkind, List.map_append, List.map_append, hwaiting,
        List.map_cons, List.map_cons, hface, ih hmore rfl]

theorem kinds_endStatements (hmarks : marks'.map content = marks.map content) :
    (endStatements last' pending marks').map kind =
      (endStatements last pending marks).map kind := by
  have hfaces : (endStatements last' pending marks').map face =
      (endStatements last pending marks).map face := faces_endStatements hmarks rfl
  simpa [face, Function.comp_def] using congrArg (List.map Prod.fst) hfaces

/-- The first tokens are `t` and others around it, and the second ones are of the kinds of those
others. -/
def Omits (t : Token) (ts us : List Token) : Prop :=
  ∃ before after, ts = before ++ t :: after ∧ us.map kind = (before ++ after).map kind

theorem omits_among (before : List Token) (h : us.map kind = ts.map kind) :
    Omits t (before ++ t :: ts) (before ++ us) :=
  ⟨before, ts, rfl, by simp [h]⟩

theorem Omits.append (h : Omits t ts us) {vs ws : List Token} (hvs : ws.map kind = vs.map kind) :
    Omits t (vs ++ ts) (ws ++ us) := by
  obtain ⟨before, after, rfl, hus⟩ := h
  exact ⟨vs ++ before, after, by simp, by simp [hvs, hus]⟩

theorem Omits.cons (h : Omits t ts us) (hu : u.kind = v.kind) : Omits t (v :: ts) (u :: us) :=
  @Omits.append _ _ _ h [v] [u] (by simp [hu])

/-- A comment among those that wait can be left out. -/
theorem omits_pending (comments : List Token) {behind behind' : List Token}
    (hmarks : marks'.map content = marks.map content)
    (hbehind : behind'.map kind = behind.map kind) :
    Omits t (endStatements last (some (comments ++ t :: behind)) marks)
      (endStatements last' (some (comments ++ behind')) marks') := by
  -- The comment waits between `comments` and `behind` until all of them are let go.
  induction marks generalizing marks' behind behind' with
  | nil =>
      cases List.map_eq_nil_iff.mp hmarks
      exact (omits_among comments hbehind).cons (by simp)
  | cons m marks ih =>
      obtain ⟨m', more, rfl, hm, hmore⟩ := List.map_eq_cons_iff.mp hmarks
      have hrest : ∀ pending, (endStatements last' pending more).map kind =
          (endStatements last pending marks).map kind :=
        fun pending => kinds_endStatements hmore
      cases m with
      | lineBreak p =>
          obtain ⟨p', rfl⟩ := Mark.content_eq_none.mp hm
          simp only [endStatements, List.append_assoc, List.cons_append]
          exact (omits_among comments (by simp [hbehind, hrest])).cons (by simp)
      | token u =>
          obtain ⟨u', rfl, hkind, hlexeme⟩ := Mark.content_eq_some.mp hm
          by_cases hu : u.kind.isComment = true
          · have hbreak := innerBreak?_isSome hlexeme
            cases hinner : u.innerBreak? with
            | none =>
                have hinner' : u'.innerBreak? = none := by simpa [hinner] using hbreak
                simp only [endStatements, hkind, hu, hinner, hinner', if_true, List.append_assoc,
                  List.cons_append]
                exact ih hmore (by simp [hbehind, hkind])
            | some p =>
                obtain ⟨p', hinner'⟩ : ∃ p', u'.innerBreak? = some p' :=
                  Option.isSome_iff_exists.mp (by rw [hbreak, hinner]; rfl)
                simp only [endStatements, hkind, hu, hinner, hinner', if_true, List.append_assoc,
                  List.cons_append]
                exact (omits_among comments (by simp [hbehind, hkind, hrest])).cons (by simp)
          · have hu : u.kind.isComment = false := eq_false_of_ne_true hu
            rw [endStatements_token hu, endStatements_token (by rw [hkind, hu]), hkind]
            simp only [Option.getD_some, List.append_assoc, List.cons_append]
            exact omits_among comments (by simp [hbehind, hkind, hrest])

/-- A comment can be left out. -/
theorem omits_endStatements (marks : List Mark) {more more' : List Mark} (ht : t.kind.isComment = true)
    (hbreak : t.innerBreak? = none) (hmore : more'.map content = more.map content) :
    Omits t (endStatements last pending (marks ++ .token t :: more))
      (endStatements last' pending (marks ++ more')) := by
  fun_induction endStatements last pending marks with
  | case1 =>
      -- No statement is open, so the comment does not wait.
      simp only [List.nil_append, endStatements, ht, if_true]
      exact omits_among [] (kinds_endStatements hmore)
  | case2 comments =>
      simp only [List.nil_append, endStatements, ht, hbreak, if_true]
      have homits := @omits_pending last last' more more' t comments [] [] hmore rfl
      rwa [List.append_nil] at homits
  | case3 p marks ih => exact ih
  | case4 comments p marks ih =>
      simp only [List.cons_append, endStatements]
      exact (ih.append rfl).cons rfl
  | case5 u marks hu ih =>
      simp only [List.cons_append, endStatements, hu, if_true]
      exact ih.cons rfl
  | case6 u marks hu comments hinner ih =>
      simp only [List.cons_append, endStatements, hu, hinner, if_true]
      exact ih
  | case7 u marks hu comments q hinner ih =>
      simp only [List.cons_append, endStatements, hu, hinner, if_true]
      exact ((ih.cons rfl).append rfl).cons rfl
  | case8 pending u marks hu ih =>
      rw [List.cons_append, List.cons_append, endStatements_token (eq_false_of_ne_true hu),
        endStatements_token (eq_false_of_ne_true hu)]
      exact (ih.cons rfl).append rfl

theorem count_endStatements (ht : t.kind.isComment = true) (marks : List Mark) :
    (endStatements last pending marks).count t =
      (pending.getD []).count t + marks.count (.token t) := by
  have hlineEnd : ∀ (comments : List Token) (p : Position), lineEndBefore comments p ≠ t := by
    rintro comments p rfl
    simp [Kind.isComment] at ht
  fun_induction endStatements last pending marks with
  | case1 => rfl
  | case2 comments => simp [hlineEnd]
  | case3 p marks ih => simp [ih]
  | case4 comments p marks ih => simp [hlineEnd, ih]
  | case5 u marks hu ih => simp [List.count_cons, ih]
  | case6 u marks hu comments hinner ih => simp [List.count_cons, ih]; omega
  | case7 u marks hu comments q hinner ih => simp [List.count_cons, hlineEnd, ih]
  | case8 pending u marks hu ih =>
      have hnext : ((if u.kind.endsStatement then some [] else none).getD [] : List Token) = [] := by
        split <;> rfl
      rw [hnext] at ih
      simp [List.count_cons, ih]

end Token

end DeclBridge
