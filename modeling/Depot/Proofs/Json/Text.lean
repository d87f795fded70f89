import Depot.Proofs.Json.Token
import Mathlib.Data.List.Forall2

set_option autoImplicit false

namespace Depot.Json

def Token.separated : List (List Token) → List Token
  | [] => []
  | [tokens] => tokens
  | tokens :: rest => tokens ++ .comma :: separated rest

mutual

def tokens : Json → List Token
  | null => [.null]
  | bool value => [.bool value]
  | integer value => [.integer value]
  | real => [.real]
  | string value => [.string value]
  | array items => .openArray :: Token.separated (tokensEach items) ++ [.closeArray]
  | object members => .openObject :: Token.separated (tokensMembers members) ++ [.closeObject]

def tokensEach : List Json → List (List Token)
  | [] => []
  | item :: rest => tokens item :: tokensEach rest

def tokensMembers : List (String × Json) → List (List Token)
  | [] => []
  | (key, value) :: rest => (.string key :: .colon :: tokens value) :: tokensMembers rest

end

mutual

/-- How many containers are inside of each other, with the value itself. -/
def height : Json → Nat
  | null | bool _ | integer _ | real | string _ => 0
  | array items => heightEach items + 1
  | object members => heightMembers members + 1

def heightEach : List Json → Nat
  | [] => 0
  | item :: rest => max (height item) (heightEach rest)

def heightMembers : List (String × Json) → Nat
  | [] => 0
  | (_, value) :: rest => max (height value) (heightMembers rest)

end

mutual

/-- A value with no integer that is too large for a word of 64 bits. -/
def Fits : Json → Prop
  | integer value => InWord value
  | null | bool _ | real | string _ => True
  | array items => FitsEach items
  | object members => FitsMembers members

def FitsEach : List Json → Prop
  | [] => True
  | item :: rest => Fits item ∧ FitsEach rest

def FitsMembers : List (String × Json) → Prop
  | [] => True
  | (_, value) :: rest => Fits value ∧ FitsMembers rest

end

def memberTokens (member : String × Json) : List Token :=
  .string member.1 :: .colon :: member.2.tokens

theorem tokensEach_eq (items : List Json) : tokensEach items = items.map tokens := by
  induction items with
  | nil => rfl
  | cons item later ih => rw [tokensEach, ih, List.map_cons]

theorem tokensMembers_eq (members : List (String × Json)) :
    tokensMembers members = members.map memberTokens := by
  induction members with
  | nil => rfl
  | cons member later ih => rw [tokensMembers, ih, List.map_cons, memberTokens]

theorem heightEach_eq (items : List Json) : heightEach items = (items.map height).foldr max 0 := by
  induction items with
  | nil => rfl
  | cons item later ih => rw [heightEach, ih, List.map_cons, List.foldr_cons]

theorem heightMembers_eq (members : List (String × Json)) :
    heightMembers members = (members.map fun member => member.2.height).foldr max 0 := by
  induction members with
  | nil => rfl
  | cons member later ih => rw [heightMembers, ih, List.map_cons, List.foldr_cons]

namespace Token

/-- A text is scanned as some tokens, if what follows does not continue its last word. -/
def Scans (text : List Char) (tokens : List Token) : Prop :=
  ∀ rest, Ends rest → scan? (text ++ rest) = (scan? rest).map (tokens ++ ·)

theorem ends_cons {c : Char} (other : isWordPart c = false) (rest : List Char) :
    Ends (c :: rest) := by
  intro d head
  cases head
  exact other

theorem scans_mark {c : Char} {mark : Token} (marks : ofMark? c = some mark) {text : List Char}
    {tokens : List Token} (scans : Scans text tokens) : Scans (c :: text) (mark :: tokens) := by
  intro rest ends
  rw [List.cons_append, scan?_mark marks, scans rest ends, Option.map_map]
  rfl

/-- A text may be followed by any mark. -/
theorem scans_append {front back : List Char} {first later : List Token} (scans : Scans front first)
    {c : Char} {mark : Token} (marks : ofMark? c = some mark) (others : Scans back later) :
    Scans (front ++ c :: back) (first ++ mark :: later) := by
  intro rest ends
  have other : isWordPart c = false := by
    rw [← Bool.not_eq_true]
    intro part
    rw [(isWordPart_mark part).2.2] at marks
    cases marks
  have followed := scans (c :: back ++ rest) (ends_cons other _)
  rw [List.append_assoc, followed, scans_mark marks others rest ends, Option.map_map]
  simp only [Function.comp_def, List.append_assoc]

theorem scans_separated {texts : List (List Char)} {lists : List (List Token)}
    (scans : List.Forall₂ Scans texts lists) : Scans (Json.separated texts) (separated lists) := by
  induction scans with
  | nil =>
    intro rest _
    simp [Json.separated, separated]
  | cons first others ih =>
    cases others with
    | nil => exact first
    | cons => exact scans_append first rfl ih

/-- Texts in brackets, with commas between them. -/
theorem scans_brackets {texts : List (List Char)} {lists : List (List Token)}
    {opening closing : Char} {opens closes : Token} (starts : ofMark? opening = some opens)
    (stops : ofMark? closing = some closes) (scans : List.Forall₂ Scans texts lists) :
    Scans (opening :: Json.separated texts ++ [closing])
      (opens :: separated lists ++ [closes]) := by
  have nothing : Scans [] [] := by
    intro rest _
    simp
  exact scans_append (scans_mark starts (scans_separated scans)) stops nothing

end Token

open Token (Scans scans_append scans_brackets scan?_quoted scan?_word scan?_integer)

mutual

/-- The text of a value is scanned as its tokens. -/
theorem scans_characters (value : Json) (fits : value.Fits) :
    Scans value.characters value.tokens := by
  cases value with
  | null => exact fun _ => scan?_word (by decide) (by decide) rfl
  | bool value =>
    cases value with
    | true => exact fun _ => scan?_word (by decide) (by decide) rfl
    | false => exact fun _ => scan?_word (by decide) (by decide) rfl
  | integer value => exact fun _ => scan?_integer fits
  | real => exact fun _ => scan?_word (by decide) (by decide) (by decide)
  | string value => exact fun rest _ => scan?_quoted value rest
  | array items => exact scans_brackets rfl rfl (scans_charactersEach items fits)
  | object members => exact scans_brackets rfl rfl (scans_charactersMembers members fits)

theorem scans_charactersEach (items : List Json) (fits : FitsEach items) :
    List.Forall₂ Scans (charactersEach items) (tokensEach items) := by
  cases items with
  | nil => exact .nil
  | cons item later =>
    exact .cons (scans_characters item fits.1) (scans_charactersEach later fits.2)

theorem scans_charactersMembers (members : List (String × Json)) (fits : FitsMembers members) :
    List.Forall₂ Scans (charactersMembers members) (tokensMembers members) := by
  cases members with
  | nil => exact .nil
  | cons member later =>
    obtain ⟨key, value⟩ := member
    have key : Scans (quoted key) [.string key] := fun rest _ => scan?_quoted key rest
    exact .cons (scans_append key rfl (scans_characters value fits.1))
      (scans_charactersMembers later fits.2)

end

theorem scan?_text (value : Json) (fits : value.Fits) :
    Token.scan? value.text.toList = some value.tokens := by
  have scanned := scans_characters value fits [] (by simp [Token.Ends])
  have nothing : Token.scan? [] = some [] := by rw [Token.scan?]
  simpa [text, nothing] using scanned

namespace Reading

/-- The first token of a value ends no array. -/
theorem exists_token (value : Json) : ∃ first rest, value.tokens = first :: rest ∧
    first ≠ .closeArray := by
  cases value <;> exact ⟨_, _, rfl, nofun⟩

/-- The first item of an array is read like any other. -/
theorem firstItem_eq (around : List Frame) (item : Json) (later : List Json) (rest : List Token) :
    (Token.separated (tokensEach (item :: later)) ++ rest).foldlM next (firstItem around) =
      (Token.separated (tokensEach (item :: later)) ++ rest).foldlM next
        (beforeValue (.array [] :: around)) := by
  obtain ⟨first, tokens, listed, other⟩ := exists_token item
  have whole : ∃ more, Token.separated (tokensEach (item :: later)) = first :: more := by
    rw [tokensEach, listed]
    cases tokensEach later <;> exact ⟨_, rfl⟩
  obtain ⟨more, listed⟩ := whole
  have same : next (firstItem around) first = next (beforeValue (.array [] :: around)) first := by
    cases first with
    | closeArray => exact absurd rfl other
    | _ => rfl
  rw [listed, List.cons_append, List.foldlM_cons, List.foldlM_cons, same]

/-- The first key of an object is read like any other. -/
theorem firstKey_eq (around : List Frame) (member : String × Json) (later : List (String × Json))
    (rest : List Token) :
    (Token.separated (tokensMembers (member :: later)) ++ rest).foldlM next (firstKey around) =
      (Token.separated (tokensMembers (member :: later)) ++ rest).foldlM
        next (beforeKey around []) := by
  rw [tokensMembers]
  cases tokensMembers later <;> rfl

/-- Two limits in turn are a limit for the higher one. -/
theorem ite_max {α : Type} {level first second limit : Nat} {read nothing : α} :
    (if level + (first + 1) ≤ limit then if level + (second + 1) ≤ limit then read else nothing
      else nothing) = if level + (max first second + 1) ≤ limit then read else nothing := by
  have both : level + (max first second + 1) ≤ limit ↔
      level + (first + 1) ≤ limit ∧ level + (second + 1) ≤ limit := by omega
  simp only [both, ite_and]

/-- Entries with commas between them are read one by one up to the end of their container. `between`
stands after a comma and `behind` after an entry. -/
theorem read_separated {α : Type} {written : α → List Token} {high : α → Nat} {level : Nat}
    (between : List α → Reading) (behind : List α → α → Reading) (closed : List α → Reading)
    {closes : Token}
    (comma : ∀ before entry, next (behind before entry) .comma = some (between (entry :: before)))
    (close : ∀ before entry, next (behind before entry) closes = some (closed (entry :: before)))
    {entry : α} {entries : List α}
    (read : ∀ entry' ∈ entry :: entries, ∀ before rest,
      (written entry' ++ rest).foldlM next (between before) =
        if level + (high entry' + 1) ≤
          maxDepth then rest.foldlM next (behind before entry') else none)
    (before : List α) (rest : List Token) :
    (Token.separated ((entry :: entries).map written) ++ closes :: rest).foldlM
      next (between before) =
      if level + (((entry :: entries).map high).foldr max 0 + 1) ≤ maxDepth then
        rest.foldlM next (closed ((entry :: entries).reverse ++ before))
      else none := by
  induction entries generalizing entry before with
  | nil =>
    have first := read entry List.mem_cons_self before (closes :: rest)
    simpa [Token.separated, close] using first
  | cons following later ih =>
    obtain ⟨first, others⟩ := List.forall_mem_cons.mp read
    have listed : Token.separated ((entry :: following :: later).map written) ++ closes :: rest =
        written entry ++
          .comma :: (Token.separated ((following :: later).map written) ++ closes :: rest) := by
      simp [Token.separated]
    rw [listed, first, List.foldlM_cons, comma]
    simp only [Option.bind_eq_bind, Option.bind_some]
    rw [ih others, ite_max]
    simp

/-- The tokens of a value are read as the value, if not too many containers are open at once then.
-/
def Reads (value : Json) : Prop :=
  ∀ (around : List Frame) (rest : List Token), around.length ≤ maxDepth →
    (value.tokens ++ rest).foldlM next (beforeValue around) =
      if around.length + value.height ≤
        maxDepth then rest.foldlM next (afterValue around value) else none

theorem reads_array {items : List Json} (each : ∀ item ∈ items, Reads item) :
    Reads (.array items) := by
  intro around rest room
  have opened : ((array items).tokens ++ rest).foldlM next (beforeValue around) =
      if around.length < maxDepth then
        (Token.separated (tokensEach items) ++ .closeArray :: rest).foldlM next (firstItem around)
      else none := by
    rw [tokens, List.append_assoc, List.cons_append, List.foldlM_cons, next, start]
    split <;> rfl
  rw [opened, height]
  by_cases space : around.length < maxDepth
  · rw [if_pos space]
    cases items with
    | nil => exact (if_pos space).symm
    | cons item later =>
      have read (item' : Json) (present : item' ∈ item :: later) (before : List Json)
        (rest : List Token) :
          (item'.tokens ++ rest).foldlM next (beforeValue (.array before :: around)) =
            if around.length + (item'.height + 1) ≤ maxDepth then
              rest.foldlM next (afterValue (.array before :: around) item')
            else none := by
        rw [each item' present (.array before :: around) rest space, List.length_cons,
          Nat.add_assoc, Nat.add_comm 1]
      have close (before : List Json) (item' : Json) :
          next (afterValue (.array before :: around) item') .closeArray =
            some (afterValue around (.array (item' :: before).reverse)) :=
        rfl
      have all := read_separated (fun before => beforeValue (.array before :: around))
        (fun before => afterValue (.array before :: around))
        (fun before => afterValue around (.array before.reverse)) (fun _ _ => rfl)
          close read [] rest
      rw [firstItem_eq, tokensEach_eq, heightEach_eq, all, List.append_nil, List.reverse_reverse]
  · rw [if_neg space, if_neg (by omega)]

theorem reads_object {members : List (String × Json)} (each : ∀ member ∈ members, Reads member.2) :
    Reads (.object members) := by
  intro around rest room
  have opened : ((object members).tokens ++ rest).foldlM next (beforeValue around) =
      if around.length < maxDepth then
        (Token.separated (tokensMembers members) ++ .closeObject :: rest).foldlM
          next (firstKey around)
      else none := by
    rw [tokens, List.append_assoc, List.cons_append, List.foldlM_cons, next, start]
    split <;> rfl
  rw [opened, height]
  by_cases space : around.length < maxDepth
  · rw [if_pos space]
    cases members with
    | nil => exact (if_pos space).symm
    | cons member later =>
      have read (member' : String × Json) (present : member' ∈ member :: later)
          (before : List (String × Json)) (rest : List Token) :
          (memberTokens member' ++ rest).foldlM next (beforeKey around before) =
            if around.length + (member'.2.height + 1) ≤ maxDepth then
              rest.foldlM next (afterValue (.object before member'.1 :: around) member'.2)
            else none := by
        have value := each member' present (.object before member'.1 :: around) rest space
        rw [List.length_cons, Nat.add_assoc, Nat.add_comm 1] at value
        exact value
      have close (before : List (String × Json)) (member' : String × Json) :
          next (afterValue (.object before member'.1 :: around) member'.2) .closeObject =
            some (afterValue around (.object (member' :: before).reverse)) :=
        rfl
      have all := read_separated (beforeKey around)
        (fun before member => afterValue (.object before member.1 :: around) member.2)
        (fun before => afterValue around (.object before.reverse)) (fun _ _ => rfl)
          close read [] rest
      rw [firstKey_eq, tokensMembers_eq, heightMembers_eq, all, List.append_nil,
        List.reverse_reverse]
  · rw [if_neg space, if_neg (by omega)]

mutual

theorem reads (value : Json) : Reads value := by
  cases value with
  | null | bool | integer | real | string => exact fun _ _ room => (if_pos room).symm
  | array items => exact reads_array (reads_each items)
  | object members => exact reads_object (reads_members members)

theorem reads_each (items : List Json) : ∀ item ∈ items, Reads item := by
  cases items with
  | nil => exact nofun
  | cons item later => exact List.forall_mem_cons.mpr ⟨reads item, reads_each later⟩

theorem reads_members (members : List (String × Json)) : ∀ member ∈ members, Reads member.2 := by
  cases members with
  | nil => exact nofun
  | cons member later =>
    obtain ⟨_, value⟩ := member
    exact List.forall_mem_cons.mpr ⟨reads value, reads_members later⟩

end

end Reading

/-- A value is read back from its shortest text, unless more containers are inside of each other
than may be open. -/
theorem ofText?_text (value : Json) (fits : value.Fits) :
    ofText? value.text = if value.height ≤ Reading.maxDepth then some value else none := by
  have read := Reading.reads value [] [] (Nat.zero_le _)
  simp only [List.append_nil, List.length_nil, Nat.zero_add, List.foldlM_nil] at read
  rw [ofText?, scan?_text value fits]
  simp only [Option.bind_eq_bind, Option.bind_some]
  rw [ofTokens?, read]
  split <;> rfl

/-- What is relied on where values are written as texts and read again: a text tells its value,
unless more containers are inside of each other than may be open. -/
structure Format.Lawful (format : Format) : Prop where
  within : ∀ value : Json, value.Fits → value.height ≤ Reading.maxDepth →
    format.ofText? (format.text value) = some value
  beyond : ∀ value : Json, value.Fits → Reading.maxDepth < value.height →
    format.ofText? (format.text value) = none

theorem Format.compact_lawful : compact.Lawful where
  within value fits low := (ofText?_text value fits).trans (if_pos low)
  beyond value fits high := (ofText?_text value fits).trans (if_neg (Nat.not_le.mpr high))

end Depot.Json
