import SchemaBridge.Json
import SchemaBridge.Proofs.EnumConstants

/-!
# What JSON text says

A JSON text is read in two steps. `tokens?` cuts it into tokens: brackets, commas and colons, texts with
their escapes, and numbers, with blanks between them. `tokens` gives the tokens of a value by the grammar
of JSON. A text spells a value if it is cut into the value's tokens (`SpelledBy`). Only what a `Json` can
be is read: numbers are integers, and the words for truth values and for nothing are refused.

* `tokens?_render`: what is written for a value is cut into the value's tokens. Each line of it is cut by
  itself (`ReadAs`), and line feeds and indentation are blanks.
* `tokens_inj`: the tokens of a value are those of no other value.
* `spelledBy_render_iff`: so what is written for a value spells this value and no other one.
-/

namespace SchemaBridge.Json

open Text

/-! ## Tokens -/

inductive Token where
  /-- A bracket, a comma or a colon. -/
  | mark (c : Char)
  | text (s : String)
  | number (n : Int)
deriving DecidableEq

def marks : List Char := ['[', ']', '\x7b', '\x7d', ',', ':']

/-- Some parts in brackets, with commas between them. -/
def enclosed (opening closing : Char) (parts : List (List Token)) : List Token :=
  .mark opening :: ([.mark ','].intercalate parts ++ [.mark closing])

mutual

/-- The tokens of a value, by the grammar of JSON. -/
def tokens : Json → List Token
  | .text s => [.text s]
  | .number n => [.number n]
  | .array items => enclosed '[' ']' (itemTokens items)
  | .object members => enclosed '\x7b' '\x7d' (memberTokens members)

def itemTokens : List Json → List (List Token)
  | [] => []
  | item :: items => tokens item :: itemTokens items

def memberTokens : List (String × Json) → List (List Token)
  | [] => []
  | (key, value) :: members => (.text key :: .mark ':' :: tokens value) :: memberTokens members

end

/-! ## Cutting a text into tokens -/

/-- The blanks between tokens. -/
def spaces : List Char := [' ', '\n', '\r', '\t']

/-- A character of a number. -/
def isNumeral (c : Char) : Bool := c = '-' || c.isDigit

/-- The character that stands after a backslash for another one. -/
def escaped? : Char → Option Char
  | '"' => some '"'
  | '\\' => some '\\'
  | '/' => some '/'
  | 'b' => some '\x08'
  | 'f' => some '\x0c'
  | 'n' => some '\n'
  | 'r' => some '\r'
  | 't' => some '\t'
  | _ => none

/-- The character whose number is spelled by hexadecimal digits; half of a surrogate pair is none. -/
def coded? (digits : List Char) : Option Char :=
  (digits? 16 digits).bind fun n => if n.isValidChar then some (Char.ofNat n) else none

/-- A text that is read, and what follows it, with one more character in front of the text. -/
def withFirst (c : Char) (read : List Char × List Char) : List Char × List Char := (c :: read.1, read.2)

/-- The text up to the next quote, and what follows the quote. A control character has to be escaped. -/
def quoted? : List Char → Option (List Char × List Char)
  | [] => none
  | '"' :: cs => some ([], cs)
  | '\\' :: 'u' :: c₁ :: c₂ :: c₃ :: c₄ :: cs =>
    (coded? [c₁, c₂, c₃, c₄]).bind fun c => (quoted? cs).map (withFirst c)
  | '\\' :: c :: cs => (escaped? c).bind fun c => (quoted? cs).map (withFirst c)
  | c :: cs => if c.toNat < 0x20 then none else (quoted? cs).map (withFirst c)

/-- A decimal number without needless zeros in front. -/
def unsigned? (cs : List Char) : Option Nat :=
  if cs.head? = some '0' ∧ cs ≠ ['0'] then none else digits? 10 cs

def number? : List Char → Option Int
  | '-' :: cs => (unsigned? cs).map fun n => -(n : Int)
  | cs => (unsigned? cs).map Int.ofNat

variable {c : Char} {cs : List Char} {read : List Char × List Char}

theorem exists_of_map_withFirst {o : Option (List Char × List Char)}
    (h : o.map (withFirst c) = some read) : ∃ read', o = some read' ∧ read.2 = read'.2 := by
  obtain ⟨read', ho, rfl⟩ := Option.map_eq_some_iff.1 h
  exact ⟨read', ho, rfl⟩

/-- What follows a quoted text is shorter than all that is read. -/
theorem length_quoted? (h : quoted? cs = some read) : read.2.length < cs.length := by
  fun_induction quoted? cs generalizing read with
  | case1 => cases h
  | case2 cs =>
    obtain rfl := Option.some.inj h
    exact Nat.lt_succ_self _
  | case3 c₁ c₂ c₃ c₄ cs ih | case4 c cs hcode ih =>
    obtain ⟨c, -, h⟩ := Option.bind_eq_some_iff.1 h
    obtain ⟨read', hread, heq⟩ := exists_of_map_withFirst h
    have := ih hread
    simp only [heq, List.length_cons]
    omega
  | case5 => cases h
  | case6 c cs _ _ _ _ ih =>
    obtain ⟨read', hread, heq⟩ := exists_of_map_withFirst h
    have := ih hread
    simp only [heq, List.length_cons]
    omega

/-- The tokens of a text; a number ends where no character of a number follows. -/
def tokens? (cs : List Char) : Option (List Token) :=
  match cs with
  | [] => some []
  | c :: cs =>
    if c ∈ spaces then tokens? cs
    else if c ∈ marks then (tokens? cs).map (.mark c :: ·)
    else if c = '"' then
      match _h : quoted? cs with
      | some read => (tokens? read.2).map (.text (String.ofList read.1) :: ·)
      | none => none
    else
      (number? (c :: cs.takeWhile isNumeral)).bind fun n =>
        (tokens? (cs.dropWhile isNumeral)).map (.number n :: ·)
termination_by cs.length
decreasing_by
  · simp
  · simp
  · have := length_quoted? _h
    simp; omega
  · have := (List.dropWhile_suffix isNumeral (l := cs)).length_le
    simp; omega

example : tokens? "[1, \"a\\u0041\"]".toList =
    some [.mark '[', .number 1, .mark ',', .text "aA", .mark ']'] := by cbv

/-! ## Reading what is written -/

theorem coded?_control : ∀ n < 0x20,
    coded? ['0', '0', hexDigit (n / 16), hexDigit n] = some (Char.ofNat n) := by decide

/-- A character that is escaped is read as the character. -/
theorem quoted?_escape (c : Char) (cs : List Char) :
    quoted? (escape c ++ cs) = (quoted? cs).map (withFirst c) := by
  unfold escape
  split
  -- the characters that have a letter of their own after the backslash
  iterate 7 rfl
  next hquote hbackslash _ _ _ _ _ =>
    split
    · next hcontrol =>
      have hcode := coded?_control c.toNat hcontrol
      rw [Char.ofNat_toNat] at hcode
      show quoted? ('\\' :: 'u' :: '0' :: '0' :: hexDigit (c.toNat / 16) :: hexDigit c.toNat :: cs) = _
      rw [quoted?, hcode, Option.bind_some]
    · next hcontrol =>
      rw [List.singleton_append, quoted?, if_neg hcontrol]
      · exact hquote
      · exact fun _ _ _ _ _ h => absurd h hbackslash
      · exact fun _ _ h => absurd h hbackslash

theorem quoted?_flatMap_escape (cs rest : List Char) :
    quoted? (cs.flatMap escape ++ '"' :: rest) = some (cs, rest) := by
  induction cs with
  | nil => rfl
  | cons c cs ih =>
    rw [List.flatMap_cons, List.append_assoc, quoted?_escape, ih]
    rfl

theorem toList_quote (s : String) :
    (quote s).toList = '"' :: (s.toList.flatMap escape ++ ['"']) := by
  simp [quote]

/-- The digits of a number begin with a zero only if the number is zero. -/
theorem eq_zero_of_head?_toDigits : ∀ n : Nat, (Nat.toDigits 10 n).head? = some '0' → n = 0 := by
  intro n
  induction n using Nat.strongRecOn with
  | ind n ih =>
    intro h
    by_cases hn : n < 10
    · have hdigit : ∀ n < 10, Nat.digitChar n = '0' → n = 0 := by decide
      rw [Nat.toDigits_of_lt_base hn] at h
      exact hdigit n hn (Option.some.inj h)
    · rw [Nat.toDigits_of_base_le (by decide) (by omega),
        List.head?_append_of_ne_nil _ Nat.toDigits_ne_nil] at h
      have := ih (n / 10) (by omega) h
      omega

theorem unsigned?_repr (n : Nat) : unsigned? n.repr.toList = some n := by
  have hzero : ¬(n.repr.toList.head? = some '0' ∧ n.repr.toList ≠ ['0']) := by
    intro ⟨hhead, hne⟩
    rw [Nat.toList_repr] at hhead
    obtain rfl := eq_zero_of_head?_toDigits n hhead
    exact hne rfl
  rw [unsigned?, if_neg hzero]
  exact digits?_eq_some_iff.2 (spells_repr n)

theorem number?_toString (n : Int) : number? (toString n).toList = some n := by
  cases n with
  | ofNat n =>
    have hsign : ∀ cs, n.repr.toList ≠ '-' :: cs := by
      intro cs hcs
      have hdigit := isDigit_of_mem_repr (c := '-') n (by rw [hcs]; exact List.mem_cons_self ..)
      exact absurd hdigit (by decide)
    show number? n.repr.toList = _
    unfold number?
    split
    · next cs hcs => exact absurd hcs (hsign cs)
    · rw [unsigned?_repr]
      rfl
  | negSucc n =>
    rw [toList_toString_negSucc, number?, unsigned?_repr]
    rfl

/-- No blank, mark or quote is a character of a number. -/
theorem isNumeral_eq_false : ∀ c ∈ spaces ++ marks ++ ['"'], isNumeral c = false := by
  simp [spaces, marks, isNumeral]

theorem isNumeral_of_mem_toString {n : Int} (h : c ∈ (toString n).toList) : isNumeral c = true := by
  rcases isDigit_of_mem_toString n c h with rfl | hdigit
  · rfl
  · simp [isNumeral, hdigit]

/-! ## Cutting one piece after the other -/

theorem tokens?_nil : tokens? [] = some [] := by rw [tokens?]

theorem tokens?_space (h : c ∈ spaces) (cs : List Char) : tokens? (c :: cs) = tokens? cs := by
  rw [tokens?, if_pos h]

theorem tokens?_mark (h : c ∈ marks) (cs : List Char) :
    tokens? (c :: cs) = (tokens? cs).map (.mark c :: ·) := by
  have hspace : ∀ c ∈ marks, c ∉ spaces := by simp [marks, spaces]
  rw [tokens?, if_neg (hspace c h), if_pos h]

theorem tokens?_quote (s : String) (cs : List Char) :
    tokens? ((quote s).toList ++ cs) = (tokens? cs).map (.text s :: ·) := by
  have hquoted : quoted? (s.toList.flatMap escape ++ (['"'] ++ cs)) = some (s.toList, cs) :=
    quoted?_flatMap_escape s.toList cs
  rw [toList_quote, List.cons_append, List.append_assoc, tokens?, if_neg (by decide),
    if_neg (by decide), if_pos rfl]
  split
  · next read hread =>
    obtain rfl := Option.some.inj (hquoted.symm.trans hread)
    rw [String.ofList_toList]
  · next hread => cases hquoted.symm.trans hread

theorem tokens?_number (n : Int) (h : StopsAt isNumeral cs) :
    tokens? ((toString n).toList ++ cs) = (tokens? cs).map (.number n :: ·) := by
  have hnumerals : ∀ c ∈ (toString n).toList, isNumeral c = true := fun c => isNumeral_of_mem_toString
  have hnumber := number?_toString n
  obtain ⟨d, ds, hds⟩ := List.exists_cons_of_ne_nil (toString_ne_nil n)
  rw [hds] at hnumber hnumerals ⊢
  obtain ⟨hd, hrest⟩ := List.forall_mem_cons.1 hnumerals
  -- the first character decides which piece is cut off
  have hother : d ∉ spaces ++ marks ++ ['"'] := by
    intro hmem
    rw [isNumeral_eq_false d hmem] at hd
    cases hd
  rw [List.mem_append, List.mem_append, List.mem_singleton, not_or, not_or] at hother
  obtain ⟨⟨hspace, hmark⟩, hquote⟩ := hother
  rw [List.cons_append, tokens?, if_neg hspace, if_neg hmark, if_neg hquote,
    takeWhile_run hrest h, dropWhile_run hrest h, hnumber, Option.bind_some]

/-! ## Pieces of a text -/

/-- The characters are cut into the tokens, whatever follows that does not continue a number. -/
def CutInto (cs : List Char) (ts : List Token) : Prop :=
  ∀ rest, StopsAt isNumeral rest → tokens? (cs ++ rest) = (tokens? rest).map (ts ++ ·)

variable {cs' : List Char} {ts ts' : List Token}

theorem cutInto_nil : CutInto [] [] := fun _ _ => by simp

/-- A piece ends where the next one begins with no character of a number. -/
theorem CutInto.append (h : CutInto cs ts) (hc : isNumeral c = false) (h' : CutInto (c :: cs') ts') :
    CutInto (cs ++ c :: cs') (ts ++ ts') := by
  intro rest hrest
  have hstop : StopsAt isNumeral (c :: cs' ++ rest) := stopsAt_cons.2 hc
  rw [List.append_assoc, h _ hstop, h' rest hrest, Option.map_map]
  simp only [Function.comp_def, List.append_assoc]

theorem CutInto.space (hc : c ∈ spaces) (h : CutInto cs ts) : CutInto (c :: cs) ts := by
  intro rest hrest
  rw [List.cons_append, tokens?_space hc, h rest hrest]

theorem CutInto.mark (hc : c ∈ marks) (h : CutInto cs ts) : CutInto (c :: cs) (.mark c :: ts) := by
  intro rest hrest
  rw [List.cons_append, tokens?_mark hc, h rest hrest, Option.map_map]
  rfl

theorem CutInto.quote (s : String) (h : CutInto cs ts) :
    CutInto ((quote s).toList ++ cs) (.text s :: ts) := by
  intro rest hrest
  rw [List.append_assoc, tokens?_quote, h rest hrest, Option.map_map]
  rfl

theorem cutInto_number (n : Int) : CutInto (toString n).toList [.number n] :=
  fun _ hrest => tokens?_number n hrest

/-! ## The lines of a value -/

/-- Each line is cut by itself, and the lines are cut into the tokens together. -/
inductive ReadAs : List String → List Token → Prop
  | nil : ReadAs [] []
  | cons {line : String} {ls : List String} {ts ts' : List Token} (h : CutInto line.toList ts)
      (hrest : ReadAs ls ts') : ReadAs (line :: ls) (ts ++ ts')

variable {line : String} {ls ls' : List String}

theorem readAs_singleton (h : CutInto line.toList ts) : ReadAs [line] ts := by
  have := ReadAs.cons h .nil
  rwa [List.append_nil] at this

theorem ReadAs.append (h : ReadAs ls ts) (h' : ReadAs ls' ts') : ReadAs (ls ++ ls') (ts ++ ts') := by
  induction h with
  | nil => exact h'
  | cons h _ ih =>
    rw [List.cons_append, List.append_assoc]
    exact .cons h ih

theorem ReadAs.indent (h : ReadAs ls ts) : ReadAs (ls.map ("  " ++ ·)) ts := by
  induction h with
  | nil => exact .nil
  | @cons line _ _ _ h _ ih =>
    refine .cons ?_ ih
    have hline : ("  " ++ line).toList = ' ' :: ' ' :: line.toList := by simp
    rw [hline]
    exact .space (by decide) (.space (by decide) h)

/-- A comma after the last line is the last token. -/
theorem ReadAs.comma (h : ReadAs ls ts) (hne : ls ≠ []) :
    ReadAs (ls.dropLast ++ [ls.getLastD "" ++ ","]) (ts ++ [.mark ',']) := by
  induction h with
  | nil => exact absurd rfl hne
  | @cons line ls ts ts' h hrest ih =>
    cases ls with
    | nil =>
      cases hrest
      have hcomma : CutInto [','] [.mark ','] := .mark (by decide) cutInto_nil
      refine readAs_singleton ?_
      rw [List.append_nil, List.getLastD_cons, List.getLastD_nil, String.toList_append]
      exact h.append (by decide) hcomma
    | cons line' ls =>
      rw [List.dropLast_cons_cons, List.getLastD_cons, List.cons_append, List.append_assoc]
      exact .cons h (ih (List.cons_ne_nil _ _))

theorem ReadAs.withKey (key : String) (h : ReadAs ls ts) (hne : ls ≠ []) :
    ReadAs (withKey key ls) (.text key :: .mark ':' :: ts) := by
  cases h with
  | nil => exact absurd rfl hne
  | @cons line ls ts ts' h hrest =>
    have hline : (quote key ++ ": " ++ line).toList = (quote key).toList ++ ':' :: ' ' :: line.toList := by
      simp
    have hkey : CutInto (quote key ++ ": " ++ line).toList (.text key :: .mark ':' :: ts) := by
      rw [hline]
      exact .quote key (.mark (by decide) (.space (by decide) h))
    exact .cons hkey hrest

/-- The lines of a part, of which there is at least one. -/
def ReadsPart (ls : List String) (ts : List Token) : Prop := ls ≠ [] ∧ ReadAs ls ts

/-- The parts of a list, each line after the other, with a comma after every part but the last. -/
theorem readAs_separated {parts : List (List String)} {tss : List (List Token)}
    (h : List.Forall₂ ReadsPart parts tss) (hne : parts ≠ []) :
    ReadAs ((parts.dropLast.map fun ls => ls.dropLast ++ [ls.getLastD "" ++ ","]).flatten ++
      parts.getLastD []) ([.mark ','].intercalate tss) := by
  induction h with
  | nil => exact absurd rfl hne
  | @cons ls ts parts tss hpart hparts ih =>
    cases hparts with
    | nil =>
      rw [List.getLastD_cons, List.getLastD_nil, List.intercalate_singleton]
      exact hpart.2
    | cons hpart' hparts =>
      rw [List.dropLast_cons_cons, List.getLastD_cons, List.map_cons, List.flatten_cons, List.append_assoc,
        List.intercalate_cons_cons]
      exact (hpart.2.comma hpart.1).append (ih (List.cons_ne_nil _ _))

theorem readsPart_bracket {opening closing : String} {o c : Char} (ho : o ∈ marks) (hc : c ∈ marks)
    (hopening : opening.toList = [o]) (hclosing : closing.toList = [c])
    {parts : List (List String)} {tss : List (List Token)} (h : List.Forall₂ ReadsPart parts tss) :
    ReadsPart (bracket opening closing parts) (enclosed o c tss) := by
  cases h with
  | nil =>
    refine ⟨List.cons_ne_nil _ _, readAs_singleton ?_⟩
    rw [String.toList_append, hopening, hclosing]
    exact .mark ho (.mark hc cutInto_nil)
  | cons hpart hparts =>
    have hfirst : CutInto opening.toList [.mark o] := hopening ▸ .mark ho cutInto_nil
    have hlast : CutInto closing.toList [.mark c] := hclosing ▸ .mark hc cutInto_nil
    have hinner := (readAs_separated (.cons hpart hparts) (List.cons_ne_nil _ _)).indent
    exact ⟨List.cons_ne_nil _ _, ((readAs_singleton hfirst).append hinner).append (readAs_singleton hlast)⟩

mutual

theorem readsPart_lines : ∀ j : Json, ReadsPart j.lines j.tokens
  | .text s => by
    have h := CutInto.quote s cutInto_nil
    rw [List.append_nil] at h
    exact ⟨List.cons_ne_nil _ _, readAs_singleton h⟩
  | .number n => ⟨List.cons_ne_nil _ _, readAs_singleton (cutInto_number n)⟩
  | .array items => readsPart_bracket (by decide) (by decide) rfl rfl (readsParts_items items)
  | .object members => readsPart_bracket (by decide) (by decide) rfl rfl (readsParts_members members)

theorem readsParts_items : ∀ items : List Json,
    List.Forall₂ ReadsPart (itemLines items) (itemTokens items)
  | [] => .nil
  | item :: items => .cons (readsPart_lines item) (readsParts_items items)

theorem readsParts_members : ∀ members : List (String × Json),
    List.Forall₂ ReadsPart (memberLines members) (memberTokens members)
  | [] => .nil
  | (key, value) :: members => by
    obtain ⟨hne, hread⟩ := readsPart_lines value
    refine .cons ⟨?_, hread.withKey key hne⟩ (readsParts_members members)
    obtain ⟨line, ls, hls⟩ := List.exists_cons_of_ne_nil hne
    rw [hls]
    exact List.cons_ne_nil _ _

end

/-- Lines one after the other, with line feeds between them. -/
theorem ReadAs.cutInto (h : ReadAs ls ts) : CutInto ("\n".intercalate ls).toList ts := by
  induction h with
  | nil => exact cutInto_nil
  | @cons line ls ts ts' h hrest ih =>
    cases ls with
    | nil =>
      cases hrest
      rwa [String.intercalate_singleton, List.append_nil]
    | cons line' ls =>
      have htext : ("\n".intercalate (line :: line' :: ls)).toList =
          line.toList ++ '\n' :: ("\n".intercalate (line' :: ls)).toList := by
        simp [String.intercalate_cons_cons]
      rw [htext]
      exact h.append (by decide) (.space (by decide) ih)

/-- What is written for a value is cut into the tokens of the value. -/
theorem tokens?_render (j : Json) : tokens? j.render.toList = some j.tokens := by
  have h := (readsPart_lines j).2.cutInto [] stopsAt_nil
  rwa [List.append_nil, tokens?_nil, Option.map_some, List.append_nil] at h

/-! ## The tokens of one value only -/

theorem itemTokens_eq (items : List Json) : itemTokens items = items.map tokens := by
  induction items with
  | nil => rfl
  | cons item items ih => rw [itemTokens, ih, List.map_cons]

/-- The tokens of a member of an object. -/
def tokensOfMember (member : String × Json) : List Token :=
  .text member.1 :: .mark ':' :: member.2.tokens

theorem memberTokens_eq (members : List (String × Json)) :
    memberTokens members = members.map tokensOfMember := by
  induction members with
  | nil => rfl
  | cons member members ih => rw [memberTokens, ih, List.map_cons, tokensOfMember]

section

variable {α : Type} {part : α → List Token} {closing : Char} {as as' : List α} {rest rest' : List Token}

/-- Where the tokens of `a` stand first, `a` and what follows it can be told from all tokens. -/
def ToldBy (part : α → List Token) (a : α) : Prop :=
  ∀ a' rest rest', part a ++ rest = part a' ++ rest' → a = a' ∧ rest = rest'

theorem told_after_commas (hclosing : closing ≠ ',') (hpart : ∀ a ∈ as, ToldBy part a) :
    ∀ {as' : List α},
      (as.map part).flatMap (.mark ',' :: ·) ++ .mark closing :: rest =
        (as'.map part).flatMap (.mark ',' :: ·) ++ .mark closing :: rest' → as = as' ∧ rest = rest' := by
  induction as with
  | nil =>
    intro as' h
    cases as' with
    | nil => exact ⟨rfl, (List.cons.inj h).2⟩
    | cons a' as' => exact absurd (Token.mark.inj (List.cons.inj h).1) hclosing
  | cons a as ih =>
    intro as' h
    obtain ⟨ha, has⟩ := List.forall_mem_cons.1 hpart
    cases as' with
    | nil => exact absurd (Token.mark.inj (List.cons.inj h).1).symm hclosing
    | cons a' as' =>
      simp only [List.map_cons, List.flatMap_cons, List.cons_append, List.append_assoc] at h
      obtain ⟨rfl, htail⟩ := ha _ _ _ (List.cons.inj h).2
      obtain ⟨rfl, hrest⟩ := ih has htail
      exact ⟨rfl, hrest⟩

theorem intercalate_comma (ts : List Token) (tss : List (List Token)) :
    [Token.mark ','].intercalate (ts :: tss) = ts ++ tss.flatMap (.mark ',' :: ·) := by
  induction tss generalizing ts with
  | nil => simp
  | cons ts' tss ih => rw [List.intercalate_cons_cons, ih, List.flatMap_cons]; simp

/-- The parts of a list are told by its tokens if each part is, and no part begins as the list ends. -/
theorem told_enclosed {opening : Char} (hclosing : closing ≠ ',') (hpart : ∀ a ∈ as, ToldBy part a)
    (hbegin : ∀ a, ∃ t ts, t ≠ .mark closing ∧ part a = t :: ts)
    (h : enclosed opening closing (as.map part) ++ rest =
      enclosed opening closing (as'.map part) ++ rest') : as = as' ∧ rest = rest' := by
  -- an empty list closes where the first part of another one would begin
  have hclosed : ∀ a (ts ts' : List Token), .mark closing :: ts ≠ part a ++ ts' := by
    intro a ts ts' heq
    obtain ⟨t, ts'', ht, ha⟩ := hbegin a
    rw [ha, List.cons_append] at heq
    exact ht (List.cons.inj heq).1.symm
  have htail : [Token.mark ','].intercalate (as.map part) ++ .mark closing :: rest =
      [Token.mark ','].intercalate (as'.map part) ++ .mark closing :: rest' := by
    simpa [enclosed] using h
  cases as with
  | nil =>
    cases as' with
    | nil => exact ⟨rfl, (List.cons.inj htail).2⟩
    | cons a' as' =>
      rw [List.map_cons, intercalate_comma, List.append_assoc] at htail
      exact absurd htail (hclosed a' _ _)
  | cons a as =>
    obtain ⟨ha, has⟩ := List.forall_mem_cons.1 hpart
    cases as' with
    | nil =>
      rw [List.map_cons, intercalate_comma, List.append_assoc] at htail
      exact absurd htail.symm (hclosed a _ _)
    | cons a' as' =>
      rw [List.map_cons, List.map_cons, intercalate_comma, intercalate_comma, List.append_assoc,
        List.append_assoc] at htail
      obtain ⟨rfl, hcommas⟩ := ha _ _ _ htail
      obtain ⟨rfl, hrest⟩ := told_after_commas hclosing has hcommas
      exact ⟨rfl, hrest⟩

end

theorem tokens_begin (j : Json) : ∃ t ts, t ≠ .mark ']' ∧ j.tokens = t :: ts := by
  cases j <;> simp [tokens, enclosed]

theorem tokensOfMember_begin (member : String × Json) :
    ∃ t ts, t ≠ .mark '\x7d' ∧ tokensOfMember member = t :: ts :=
  ⟨.text member.1, _, nofun, rfl⟩

mutual

theorem told_tokens : ∀ j : Json, ToldBy tokens j
  | .text s, j', rest, rest', h => by
    cases j' <;> simp_all [tokens, enclosed]
  | .number n, j', rest, rest', h => by
    cases j' <;> simp_all [tokens, enclosed]
  | .array items, j', rest, rest', h => by
    cases j' with
    | array items' =>
      rw [tokens, tokens, itemTokens_eq, itemTokens_eq] at h
      obtain ⟨rfl, hrest⟩ := told_enclosed (by decide) (told_items items) tokens_begin h
      exact ⟨rfl, hrest⟩
    | text | number | object => simp [tokens, enclosed] at h
  | .object members, j', rest, rest', h => by
    cases j' with
    | object members' =>
      rw [tokens, tokens, memberTokens_eq, memberTokens_eq] at h
      obtain ⟨rfl, hrest⟩ := told_enclosed (by decide) (told_members members) tokensOfMember_begin h
      exact ⟨rfl, hrest⟩
    | text | number | array => simp [tokens, enclosed] at h

theorem told_items : ∀ items : List Json, ∀ item ∈ items, ToldBy tokens item
  | item :: items, a, hmem => by
    rcases List.mem_cons.1 hmem with heq | hmem
    · exact heq ▸ told_tokens item
    · exact told_items items a hmem

theorem told_members : ∀ members : List (String × Json), ∀ p ∈ members, ToldBy tokensOfMember p
  | (key, value) :: members, p, hmem => by
    rcases List.mem_cons.1 hmem with heq | hmem
    · subst heq
      intro p' rest rest' h
      obtain ⟨key', value'⟩ := p'
      simp only [tokensOfMember, List.cons_append, List.cons.injEq, Token.text.injEq, true_and] at h
      obtain ⟨rfl, hvalue⟩ := h
      obtain ⟨rfl, hrest⟩ := told_tokens value value' rest rest' hvalue
      exact ⟨rfl, hrest⟩
    · exact told_members members p hmem

end

/-- Different values have different tokens. -/
theorem tokens_inj {j j' : Json} : j.tokens = j'.tokens ↔ j = j' := by
  refine ⟨fun h => (told_tokens j j' [] [] ?_).1, fun h => h ▸ rfl⟩
  rw [h]

/-! ## Spelled values -/

/-- The text is JSON, and the value is what it says. -/
def SpelledBy (j : Json) (text : String) : Prop := tokens? text.toList = some j.tokens

/-- What is written for a value says this value and no other one. -/
theorem spelledBy_render_iff {j j' : Json} : j'.SpelledBy j.render ↔ j' = j := by
  rw [SpelledBy, tokens?_render, Option.some.injEq, tokens_inj, eq_comm]

end SchemaBridge.Json
