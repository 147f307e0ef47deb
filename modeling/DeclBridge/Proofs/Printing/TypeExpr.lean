import DeclBridge.Proofs.Grammar.TypeExpr
import DeclBridge.Proofs.Scan.Lexeme

/-!
The text of a type expression is read as that type expression. Which tokens the text has is said by a
judgment of its own, so that scanning and reading are told apart.
-/

namespace DeclBridge.TypeExpr

open Cursor
open Token (isName isInteger)

/-- Whether the length of an array is an integer literal or a constant. -/
def isLength : TypeExpr → Bool
  | named name => isInteger name || isName name
  | qualified qualifier name => isName qualifier && isName name
  | _ => false

/-- Whether the text of a type expression says what it is: its names are identifiers, and none of its
parts is kept by shape only. -/
def isPrintable : TypeExpr → Bool
  | named name => isName name
  | pointer target => target.isPrintable
  | slice elem => elem.isPrintable
  | array elem length => length.isLength && elem.isPrintable
  | map key value => key.isPrintable && value.isPrintable
  | qualified qualifier name => isName qualifier && isName name
  | dynamic => true
  | unsupported _ => false

/-- The tokens that write a name, which may be qualified. -/
inductive SpelledName : TypeExpr → List Token → Prop where
  | named {t : Token} {name : String} : t.kind = .identifier name → SpelledName (.named name) [t]
  | qualified {t u v : Token} {qualifier name : String} :
      t.kind = .identifier qualifier → u.kind = .dot → v.kind = .identifier name →
      SpelledName (.qualified qualifier name) [t, u, v]

/-- The tokens that write the length of an array. -/
inductive SpelledLength : TypeExpr → List Token → Prop where
  | int {t : Token} {text : String} : t.kind = .int text → SpelledLength (.named text) [t]
  | name {length : TypeExpr} {ts : List Token} : SpelledName length ts → SpelledLength length ts

/-- The tokens that write a type expression. -/
inductive Spelled : TypeExpr → List Token → Prop where
  | name {type : TypeExpr} {ts : List Token} : SpelledName type ts → Spelled type ts
  | pointer {t : Token} {ts : List Token} {target : TypeExpr} :
      t.kind = .star → Spelled target ts → Spelled (.pointer target) (t :: ts)
  | slice {t u : Token} {ts : List Token} {elem : TypeExpr} :
      t.kind = .opening .square → u.kind = .closing .square → Spelled elem ts →
      Spelled (.slice elem) (t :: u :: ts)
  | array {t u : Token} {ls ts : List Token} {elem length : TypeExpr} :
      t.kind = .opening .square → SpelledLength length ls → u.kind = .closing .square →
      Spelled elem ts → Spelled (.array elem length) (t :: (ls ++ u :: ts))
  | map {t u v : Token} {ks ts : List Token} {key value : TypeExpr} :
      t.kind = .keyword .map → u.kind = .opening .square → Spelled key ks →
      v.kind = .closing .square → Spelled value ts →
      Spelled (.map key value) (t :: u :: (ks ++ v :: ts))
  | dynamic {t u v : Token} :
      t.kind = .keyword .interface → u.kind = .opening .curly → v.kind = .closing .curly →
      Spelled .dynamic [t, u, v]

variable {type length : TypeExpr} {ts us : List Token} {line : Nat}

theorem nextIs_dot_closing {u : Token} (hu : u.kind = .closing .square) (us : List Token) :
    nextIs .dot (u :: us) = false := by
  simp [hu]

theorem readsMember_of_spelledName {t : Token} {name : String} (h : SpelledName type (t :: ts))
    (ht : t.kind = .identifier name) (hline : ∀ u ∈ t :: ts, u.line = line)
    (hus : nextIs .dot us = false) : ReadsMember name ⟨t.line, ts ++ us⟩ type ⟨line, us⟩ := by
  cases h with
  | named ht' =>
      rw [ht] at ht'
      cases ht'
      rw [hline t (by simp)]
      exact .alone hus
  | @qualified _ u v _ _ ht' hu hv =>
      rw [ht] at ht'
      cases ht'
      rw [← hline v (by simp)]
      exact .member hu hv

theorem reads_of_spelledName (h : SpelledName type ts) (hline : ∀ t ∈ ts, t.line = line)
    (hus : nextIs .dot us = false) : Reads (ts ++ us) type ⟨line, us⟩ := by
  cases h with
  | named ht => exact .name ht (readsMember_of_spelledName (.named ht) ht hline hus)
  | qualified ht hu hv =>
      exact .name ht (readsMember_of_spelledName (.qualified ht hu hv) ht hline hus)

theorem readsLength_of_spelled {u : Token} (h : SpelledLength length ts)
    (hu : u.kind = .closing .square) (us : List Token) :
    ReadsLength (ts ++ u :: us) length ⟨u.line, us⟩ := by
  have hend : ∀ simple, EndsLength simple (u :: us) simple ⟨u.line, us⟩ := by
    intro simple
    refine ⟨?_, by simp [hu]⟩
    simp only [afterLength?, hu]
  cases h with
  | int ht => exact .int ht (hend _)
  | name h =>
      cases h with
      | named ht => exact .name ht (.alone (nextIs_dot_closing hu us)) (hend _)
      | qualified ht hv hw => exact .name ht (.member hv hw) (hend _)

theorem reads_of_spelled (h : Spelled type ts) (hline : ∀ t ∈ ts, t.line = line)
    (hus : nextIs .dot us = false) : Reads (ts ++ us) type ⟨line, us⟩ := by
  induction h generalizing us with
  | name h => exact reads_of_spelledName h hline hus
  | pointer ht _ ih => exact .pointer ht (ih (fun u hu => hline u (by simp [hu])) hus)
  | slice ht hu _ ih => exact .slice ht hu (ih (fun u hu => hline u (by simp [hu])) hus)
  | @array t u ls ts elem length ht hl hu _ ih =>
      have hclosing : nextIs (.closing .square) (ls ++ u :: (ts ++ us)) = false := by
        cases hl with
        | int hv => simp [hv]
        | name hn => cases hn <;> simp [*]
      rw [List.cons_append, List.append_assoc]
      exact .array ht hclosing (readsLength_of_spelled hl hu (ts ++ us))
        (ih (fun v hv => hline v (by simp [hv])) hus)
  | @map t u v ks ts key value ht hu _ hv _ ihKey ihValue =>
      have hkey := ihKey (fun w hw => hline w (by simp [hw])) (nextIs_dot_closing hv (ts ++ us))
      rw [List.cons_append, List.cons_append, List.append_assoc]
      exact .map ht hu hkey hv (ihValue (fun w hw => hline w (by simp [hw])) hus)
  | @dynamic t u v ht hu hv =>
      have hgroup : Groups (u :: v :: us) ⟨line, us⟩ := by
        refine ⟨u, v :: us, .curly, rfl, hu, ?_⟩
        simp only [afterGroup?, hv, hline v (by simp)]
      exact .dynamic ht hgroup (by simp [hu, hv])

/-- Whether a token may be the first one of a type expression with a text. -/
def beginsText : Token.Kind → Bool
  | .identifier _ | .star | .opening .square | .keyword .map | .keyword .interface => true
  | _ => false

theorem begins_of_spelled (h : Spelled type ts) :
    ∃ t us, ts = t :: us ∧ beginsText t.kind = true := by
  cases h with
  | name h => cases h with
    | named ht => exact ⟨_, _, rfl, by rw [ht]; rfl⟩
    | qualified ht => exact ⟨_, _, rfl, by rw [ht]; rfl⟩
  | pointer ht | slice ht | array ht | map ht | dynamic ht =>
      exact ⟨_, _, rfl, by rw [ht]; rfl⟩

theorem ends_of_spelled (h : Spelled type ts) :
    ∃ t, [t] <:+ ts ∧ t.kind.endsStatement = true := by
  induction h with
  | name h => cases h with
    | named ht => exact ⟨_, List.suffix_rfl, by rw [ht]; rfl⟩
    | qualified _ _ hv => exact ⟨_, List.suffix_append [_, _] _, by rw [hv]; rfl⟩
  | pointer _ _ ih =>
      obtain ⟨t, ht, hend⟩ := ih
      exact ⟨t, ht.trans (List.suffix_cons _ _), hend⟩
  | slice _ _ _ ih =>
      obtain ⟨t, ht, hend⟩ := ih
      exact ⟨t, ht.trans (List.suffix_append [_, _] _), hend⟩
  | @array t u ls _ _ _ _ _ _ _ ih =>
      obtain ⟨v, hv, hend⟩ := ih
      refine ⟨v, hv.trans ⟨t :: (ls ++ [u]), ?_⟩, hend⟩
      simp
  | @map t u v ks _ _ _ _ _ _ _ _ _ ih =>
      obtain ⟨w, hw, hend⟩ := ih
      refine ⟨w, hw.trans ⟨t :: u :: (ks ++ [v]), ?_⟩, hend⟩
      simp
  | dynamic _ _ hv => exact ⟨_, List.suffix_append [_, _] _, by rw [hv]; rfl⟩

theorem isComment_of_spelledName (h : SpelledName type ts) :
    ∀ t ∈ ts, t.kind.isComment = false := by
  cases h <;> simp [*, Token.Kind.isComment]

theorem isComment_of_spelled (h : Spelled type ts) : ∀ t ∈ ts, t.kind.isComment = false := by
  induction h with
  | name h => exact isComment_of_spelledName h
  | pointer ht _ ih => simpa [ht, Token.Kind.isComment] using ih
  | slice ht hu _ ih => simpa [ht, hu, Token.Kind.isComment] using ih
  | @array _ _ ls _ _ _ ht hl hu _ ih =>
      have hlength : ∀ t ∈ ls, t.kind.isComment = false := by
        cases hl with
        | int hv => simp [hv, Token.Kind.isComment]
        | name hn => exact isComment_of_spelledName hn
      simp only [List.mem_cons, List.mem_append]
      rintro v (rfl | hv | rfl | hv)
      · rw [ht]; rfl
      · exact hlength v hv
      · rw [hu]; rfl
      · exact ih v hv
  | map ht hu _ hv _ ihKey ihValue =>
      simp only [List.mem_cons, List.mem_append]
      rintro w (rfl | rfl | hw | rfl | hw)
      · rw [ht]; rfl
      · rw [hu]; rfl
      · exact ihKey w hw
      · rw [hv]; rfl
      · exact ihValue w hw
  | dynamic ht hu hv => simp [ht, hu, hv, Token.Kind.isComment]

open Mark (Spells spells_name spells_integer spells_keyword spells_exact spells_opening
  spells_closing)
open Token (extent)
open Token.Reach (continuesWord continuesNumber)

variable {rest : List Char}

theorem head_of_isName {name : String} (h : isName name = true) :
    ∃ c cs, name.toList = c :: cs ∧ Token.beginsWord c = true ∧ c.isDigit = false := by
  simp only [isName, Bool.and_eq_true] at h
  obtain ⟨c, cs, htext, hn⟩ := Token.isWhole_iff.mp h.1
  obtain ⟨hword, hdigit, -⟩ := Token.word_of_extent hn
  exact ⟨c, cs, htext, hword, hdigit⟩

theorem spells_of_spelledName {qualifier name : String} (hqualifier : isName qualifier = true)
    (hname : isName name = true) (p : Position) (hrest : rest.head?.any continuesWord = false) :
    ∃ ts q, Spells p (qualified qualifier name).text.toList rest ts q ∧
      SpelledName (qualified qualifier name) ts := by
  obtain ⟨c, cs, htext, hword, hdigit⟩ := head_of_isName hname
  have hdot : extent '.' (name.toList ++ rest) = .ok (.exact .dot, 0) := by
    rw [htext]
    exact Token.extent_dot (by rintro rfl; revert hword; decide) hdigit (cs ++ rest)
  have hstop : ('.' :: (name.toList ++ rest)).head?.any continuesWord = false := by
    rw [List.head?_cons]
    decide
  obtain ⟨t, q, ht, hkind⟩ := spells_name hqualifier p hstop
  obtain ⟨u, r, hu, hkind'⟩ := spells_exact hdot (by decide) q
  obtain ⟨v, s, hv, hkind''⟩ := spells_name hname r hrest
  refine ⟨_, s, ?_, .qualified hkind hkind' hkind''⟩
  have hsplit : (qualified qualifier name).text.toList =
      qualifier.toList ++ (['.'] ++ name.toList) := by
    simp [text]
  rw [hsplit]
  exact ht.append (hu.append hv rfl) rfl

theorem spells_of_isLength {length : TypeExpr} (h : length.isLength = true) (rest : List Char)
    (p : Position) :
    ∃ ts q, Spells p length.text.toList (']' :: rest) ts q ∧ SpelledLength length ts := by
  have hword : (']' :: rest).head?.any continuesWord = false := by
    rw [List.head?_cons]
    decide
  have hnumber : (']' :: rest).head?.any continuesNumber = false := by
    rw [List.head?_cons]
    decide
  cases length with
  | named name =>
      rcases Bool.or_eq_true_iff.mp h with h | h
      · obtain ⟨t, q, ht, hkind⟩ := spells_integer h p hnumber
        exact ⟨[t], q, ht, .int hkind⟩
      · obtain ⟨t, q, ht, hkind⟩ := spells_name h p hword
        exact ⟨[t], q, ht, .name (.named hkind)⟩
  | qualified qualifier name =>
      rw [isLength, Bool.and_eq_true] at h
      obtain ⟨ts, q, hts, hspelled⟩ := spells_of_spelledName h.1 h.2 p hword
      exact ⟨ts, q, hts, .name hspelled⟩
  | _ => cases h

/-- Behind a star the text of a type expression is none of an operator. -/
theorem head_of_isPrintable {type : TypeExpr} (h : type.isPrintable = true) :
    ∃ c cs, type.text.toList = c :: cs ∧ c ≠ '=' := by
  have hname : ∀ {name : String}, isName name = true → ∀ more : List Char,
      ∃ c cs, name.toList ++ more = c :: cs ∧ c ≠ '=' := by
    intro name h more
    obtain ⟨c, cs, htext, hword, -⟩ := head_of_isName h
    refine ⟨c, cs ++ more, by rw [htext]; rfl, ?_⟩
    rintro rfl
    revert hword
    decide
  cases type with
  | named name =>
      have h := hname h []
      rwa [List.append_nil] at h
  | qualified qualifier name =>
      simp only [isPrintable, Bool.and_eq_true] at h
      have h := hname h.1 ('.' :: name.toList)
      simpa [text] using h
  | unsupported => cases h
  | _ =>
      simp only [text, String.toList_append]
      exact ⟨_, _, rfl, by decide⟩

/-- The text of a type expression is scanned as the tokens that write it. -/
theorem spells_of_isPrintable {type : TypeExpr} (h : type.isPrintable = true) (p : Position)
    (hrest : rest.head?.any continuesWord = false) :
    ∃ ts q, Spells p type.text.toList rest ts q ∧ Spelled type ts := by
  induction type generalizing p rest with
  | named name =>
      obtain ⟨t, q, ht, hkind⟩ := spells_name h p hrest
      exact ⟨[t], q, ht, .name (.named hkind)⟩
  | pointer target ih =>
      have htarget : target.isPrintable = true := h
      obtain ⟨c, cs, htext, hc⟩ := head_of_isPrintable htarget
      -- Nothing behind the star makes another operator of it.
      have hstar : extent '*' (target.text.toList ++ rest) = .ok (.exact .star, 0) := by
        rw [htext]
        exact Token.extent_star hc (cs ++ rest)
      obtain ⟨t, q, ht, hkind⟩ := spells_exact hstar (by decide) p
      obtain ⟨ts, r, hts, hspelled⟩ := ih h q hrest
      refine ⟨_, r, ?_, .pointer hkind hspelled⟩
      have hsplit : (pointer target).text.toList = ['*'] ++ target.text.toList := by simp [text]
      rw [hsplit]
      exact ht.append hts rfl
  | slice elem ih =>
      obtain ⟨t, q, ht, hkind⟩ := spells_opening .square (']' :: (elem.text.toList ++ rest)) p
      obtain ⟨u, r, hu, hkind'⟩ := spells_closing .square (elem.text.toList ++ rest) q
      obtain ⟨ts, s, hts, hspelled⟩ := ih h r hrest
      refine ⟨_, s, ?_, .slice hkind hkind' hspelled⟩
      have hsplit : (slice elem).text.toList = ['['] ++ ([']'] ++ elem.text.toList) := by
        simp [text]
      rw [hsplit]
      exact ht.append (hu.append hts rfl) rfl
  | array elem length ihElem ihLength =>
      simp only [isPrintable, Bool.and_eq_true] at h
      obtain ⟨t, q, ht, hkind⟩ :=
        spells_opening .square (length.text.toList ++ ']' :: (elem.text.toList ++ rest)) p
      obtain ⟨ls, r, hls, hlength⟩ := spells_of_isLength h.1 (elem.text.toList ++ rest) q
      obtain ⟨u, s, hu, hkind'⟩ := spells_closing .square (elem.text.toList ++ rest) r
      obtain ⟨ts, v, hts, hspelled⟩ := ihElem h.2 s hrest
      refine ⟨_, v, ?_, .array hkind hlength hkind' hspelled⟩
      have hsplit : (array elem length).text.toList =
          ['['] ++ (length.text.toList ++ ([']'] ++ elem.text.toList)) := by
        simp [text]
      rw [hsplit]
      exact ht.append (hls.append (hu.append hts rfl) rfl) (by simp)
  | map key value ihKey ihValue =>
      simp only [isPrintable, Bool.and_eq_true] at h
      have hbracket : ('[' :: (key.text.toList ++ ']' :: (value.text.toList ++ rest))).head?.any
          continuesWord = false := by
        rw [List.head?_cons]
        decide
      have hclosing : (']' :: (value.text.toList ++ rest)).head?.any continuesWord = false := by
        rw [List.head?_cons]
        decide
      obtain ⟨t, q, ht, hkind⟩ := spells_keyword .map p hbracket
      obtain ⟨u, r, hu, hkind'⟩ :=
        spells_opening .square (key.text.toList ++ ']' :: (value.text.toList ++ rest)) q
      obtain ⟨ks, s, hks, hkey⟩ := ihKey h.1 r hclosing
      obtain ⟨v, w, hv, hkind''⟩ := spells_closing .square (value.text.toList ++ rest) s
      obtain ⟨ts, x, hts, hvalue⟩ := ihValue h.2 w hrest
      refine ⟨_, x, ?_, .map hkind hkind' hkey hkind'' hvalue⟩
      have hsplit : (map key value).text.toList =
          Keyword.map.spelling.toList ++
            (['['] ++ (key.text.toList ++ ([']'] ++ value.text.toList))) := by
        simp [text, Keyword.spelling]
      rw [hsplit]
      exact ht.append (hu.append (hks.append (hv.append hts rfl) rfl) (by simp)) (by simp)
  | qualified qualifier name =>
      simp only [isPrintable, Bool.and_eq_true] at h
      obtain ⟨ts, q, hts, hspelled⟩ := spells_of_spelledName h.1 h.2 p hrest
      exact ⟨ts, q, hts, .name hspelled⟩
  | dynamic =>
      have hbrace : ('{' :: '}' :: rest).head?.any continuesWord = false := by
        rw [List.head?_cons]
        decide
      obtain ⟨t, q, ht, hkind⟩ := spells_keyword .interface p hbrace
      obtain ⟨u, r, hu, hkind'⟩ := spells_opening .curly ('}' :: rest) q
      obtain ⟨v, s, hv, hkind''⟩ := spells_closing .curly rest r
      refine ⟨_, s, ?_, .dynamic hkind hkind' hkind''⟩
      have hsplit : dynamic.text.toList =
          Keyword.interface.spelling.toList ++ (['{'] ++ ['}']) := by decide
      rw [hsplit]
      exact ht.append (hu.append hv rfl) rfl
  | unsupported => cases h

end DeclBridge.TypeExpr
