import ChoiceGraph.TermGraph.Show
import Mathlib.Data.List.Basic
import Mathlib.Tactic.Ring

/-! # Printed data can be read back

A datum is a value as it is printed: numbers, tuples, lists, and constructors by name. Its text does not
say where one part ends and the next begins except by brackets, commas and blanks, and parentheses are
left out around what stands alone. Still two data of one text are one datum. -/
namespace ChoiceGraph

/-- A value with its tuples and its lists as such. The tuple without parts is the unit, and one of one
part is never met. -/
inductive Datum where
  | number (value : Int64)
  | tuple (parts : List Datum)
  | list (items : List Datum)
  | named (symbol : SymbolId) (args : List Datum)

open TermGraph (parenthesized)

namespace Datum

variable {names : SymbolId → String}

mutual

/-- The text of a datum, by whether it stands alone. -/
def text (names : SymbolId → String) (alone : Bool) : Datum → String
  | .number v => parenthesized (decide (v < 0) && !alone) (toString v.toInt)
  | .tuple parts => "(" ++ String.intercalate ", " (texts names true parts) ++ ")"
  | .list items => "[" ++ String.intercalate ", " (texts names true items) ++ "]"
  | .named symbol args => parenthesized (!alone && !args.isEmpty)
      (String.intercalate " " (names symbol :: texts names false args))

def texts (names : SymbolId → String) (alone : Bool) : List Datum → List String
  | [] => []
  | d :: ds => text names alone d :: texts names alone ds

end

theorem text_number (alone : Bool) (v : Int64) : text names alone (.number v) =
    parenthesized (decide (v < 0) && !alone) (toString v.toInt) := rfl

theorem text_tuple (alone : Bool) (parts : List Datum) : text names alone (.tuple parts) =
    "(" ++ String.intercalate ", " (texts names true parts) ++ ")" := rfl

theorem text_list (alone : Bool) (items : List Datum) : text names alone (.list items) =
    "[" ++ String.intercalate ", " (texts names true items) ++ "]" := rfl

theorem text_named (alone : Bool) (symbol : SymbolId) (args : List Datum) :
    text names alone (.named symbol args) = parenthesized (!alone && !args.isEmpty)
      (String.intercalate " " (names symbol :: texts names false args)) := rfl

theorem texts_eq_map (alone : Bool) (ds : List Datum) :
    texts names alone ds = ds.map (text names alone) := by
  induction ds with
  | nil => rfl
  | cons d ds ih => rw [texts, ih, List.map_cons]

/-- All symbols in the datum are of this vocabulary, and its tuples have no part or several. -/
inductive Over (V : SymbolId → Prop) : Datum → Prop where
  | number (v : Int64) : Over V (.number v)
  | tuple {parts : List Datum} (several : parts.length ≠ 1) (each : ∀ d ∈ parts, Over V d) :
      Over V (.tuple parts)
  | list {items : List Datum} (each : ∀ d ∈ items, Over V d) : Over V (.list items)
  | named {symbol : SymbolId} {args : List Datum} (known : V symbol) (each : ∀ d ∈ args, Over V d) :
      Over V (.named symbol args)

end Datum

/-! ## Words -/

/-- What sets words apart. -/
def delimiters : List Char := [' ', ',', '(', ')', '[', ']']

/-- The text is not empty, has no delimiter in it, and does not begin like a number. Identifiers that
begin with a letter are such texts. -/
structure IsIdentifier (name : String) : Prop where
  begins : ∃ c ∈ name.toList.head?, c.isDigit = false ∧ c ≠ '-'
  solid : ∀ c ∈ name.toList, c ∉ delimiters

instance (name : String) : Decidable (IsIdentifier name) :=
  decidable_of_iff (name.toList.head?.any (fun c => !c.isDigit && c != '-') ∧
      name.toList.all fun c => !delimiters.contains c)
    ⟨fun h => ⟨by simpa [Option.any_eq_true] using h.1, by simpa using h.2⟩,
      fun h => ⟨by simpa [Option.any_eq_true] using h.begins, by simpa using h.solid⟩⟩

/-- A letter with letters, digits, underscores and primes behind it is an identifier. -/
theorem IsIdentifier.of_letter {name : String} {c : Char} {cs : List Char} (begins : name.toList = c :: cs)
    (letter : c.isAlpha = true) (rest : ∀ x ∈ cs, x.isAlphanum = true ∨ x = '_' ∨ x = '\'') :
    IsIdentifier name := by
  have each : ∀ x ∈ delimiters, x.isAlphanum = false ∧ x ≠ '_' ∧ x ≠ '\'' :=
    List.forall_iff_forall_mem.mp (by decide)
  have apart : ∀ x, x.isAlphanum = true ∨ x = '_' ∨ x = '\'' → x ∉ delimiters := fun x word mem => by
    obtain ⟨other, low, prime⟩ := each x mem
    rcases word with alphanumeric | rfl | rfl
    · cases other.symm.trans alphanumeric
    · exact low rfl
    · exact prime rfl
  refine ⟨⟨c, by rw [begins]; rfl, ?_, ?_⟩, fun x hx => ?_⟩
  · delta Char.isAlpha Char.isUpper Char.isLower at letter
    delta Char.isDigit
    simp only [Bool.or_eq_true, Bool.and_eq_true, decide_eq_true_eq, Bool.and_eq_false_iff,
      decide_eq_false_iff_not] at letter ⊢
    grind
  · rintro rfl
    exact absurd letter (by decide)
  · rw [begins] at hx
    rcases List.mem_cons.mp hx with rfl | hx
    · exact apart x (.inl (by simp [Char.isAlphanum, letter]))
    · exact apart x (rest x hx)

/-- The symbols have identifiers for names, no two of them the same one. -/
structure Vocabulary (V : SymbolId → Prop) (names : SymbolId → String) : Prop where
  identifier : ∀ id, V id → IsIdentifier (names id)
  distinct : ∀ id id', V id → V id' → names id = names id' → id = id'

/-- Here a word can end. -/
def Bounded (r : List Char) : Prop := ∀ c ∈ r.head?, c ∈ delimiters

/-- A word ends where the first delimiter is. -/
theorem words_inj {w w' r r' : List Char} (hw : ∀ c ∈ w, c ∉ delimiters) (hw' : ∀ c ∈ w', c ∉ delimiters)
    (hr : Bounded r) (hr' : Bounded r') (same : w ++ r = w' ++ r') : w = w' ∧ r = r' := by
  induction w generalizing w' with
  | nil =>
    cases w' with
    | nil => exact ⟨rfl, same⟩
    | cons c w' =>
      rw [List.nil_append] at same
      exact absurd (hr c (by rw [same]; exact rfl)) (hw' c List.mem_cons_self)
  | cons c w ih =>
    cases w' with
    | nil =>
      rw [List.nil_append] at same
      exact absurd (hr' c (by rw [← same]; exact rfl)) (hw c List.mem_cons_self)
    | cons c' w' =>
      obtain ⟨rfl, rest⟩ := List.cons.inj same
      obtain ⟨rfl, rfl⟩ := ih (fun x hx => hw x (List.mem_cons_of_mem _ hx))
        (fun x hx => hw' x (List.mem_cons_of_mem _ hx)) rest
      exact ⟨rfl, rfl⟩

/-! ## Numbers -/

theorem not_delimiter_of_isDigit {c : Char} (digit : c.isDigit = true) : c ∉ delimiters := by
  intro mem
  have each : ∀ c ∈ delimiters, c.isDigit = false := List.forall_iff_forall_mem.mp (by decide)
  rw [each c mem] at digit
  cases digit

/-- The text of a number begins with a digit or with a minus sign, and all behind is digits. -/
theorem numeral_begins (z : Int) : ∃ c cs, z.repr.toList = c :: cs ∧ (c.isDigit = true ∨ c = '-') ∧
    ∀ x ∈ cs, x.isDigit = true := by
  have digits : ∀ n : Nat, ∀ c ∈ n.repr.toList, c.isDigit = true := fun n c mem =>
    Nat.isDigit_of_mem_toDigits (by decide) (by decide) (Nat.toList_repr ▸ mem)
  rw [Int.repr_eq_if]
  split
  · generalize same : z.toNat.repr.toList = w
    have each : ∀ x ∈ w, x.isDigit = true := same ▸ digits z.toNat
    cases w with
    | nil => exact absurd (Nat.toList_repr.symm.trans same) Nat.toDigits_ne_nil
    | cons c cs =>
      exact ⟨c, cs, rfl, .inl (each c List.mem_cons_self), fun x hx => each x (List.mem_cons_of_mem _ hx)⟩
  · exact ⟨'-', _, by rw [String.toList_append]; rfl, .inr rfl, digits _⟩

theorem numeral_solid (z : Int) : ∀ x ∈ z.repr.toList, x ∉ delimiters := by
  obtain ⟨c, cs, begins, first, rest⟩ := numeral_begins z
  rw [begins]
  intro x hx
  rcases List.mem_cons.mp hx with rfl | hx
  · rcases first with digit | rfl
    · exact not_delimiter_of_isDigit digit
    · decide
  · exact not_delimiter_of_isDigit (rest x hx)

theorem numeral_inj {y z : Int} (same : y.repr.toList = z.repr.toList) : y = z := by
  have natural : ∀ {m n : Nat}, m.repr.toList = n.repr.toList → m = n := fun {m n} same => by
    rw [Nat.toList_repr, Nat.toList_repr] at same
    rw [← Nat.ofDigitChars_ten_toDigits (n := m), same, Nat.ofDigitChars_ten_toDigits]
  -- a minus sign is no digit
  have signed : ∀ m n : Nat, m.repr.toList ≠ ("-" ++ n.repr).toList := fun m n same => by
    have digit := Nat.isDigit_of_mem_toDigits (b := 10) (n := m) (c := '-') (by decide) (by decide) <| by
      rw [← Nat.toList_repr, same, String.toList_append]
      exact List.mem_cons_self
    exact absurd digit (by decide)
  rw [Int.repr_eq_if, Int.repr_eq_if] at same
  split at same <;> split at same
  · have := natural same
    omega
  · exact absurd same (signed _ _)
  · exact absurd same.symm (signed _ _)
  · rw [String.toList_append, String.toList_append] at same
    have := natural (List.append_cancel_left same)
    omega

/-! ## Texts as characters -/

namespace Datum

variable {V : SymbolId → Prop} {d d' : Datum} {ds ds' : List Datum} {r r' : List Char} {alone : Bool}

def chars (names : SymbolId → String) (alone : Bool) (d : Datum) : List Char :=
  (d.text names alone).toList

/-- Inside another datum, parentheses stand around this one. -/
def wraps : Datum → Bool
  | .number v => decide (v < 0)
  | .tuple _ => false
  | .list _ => false
  | .named _ args => !args.isEmpty

/-- The texts of these data, each after the separator. -/
def row (names : SymbolId → String) (alone : Bool) (separator : List Char) (ds : List Datum) : List Char :=
  ds.flatMap fun d => separator ++ d.chars names alone

/-- The texts of these data with commas between them. -/
def listing (names : SymbolId → String) : List Datum → List Char
  | [] => []
  | d :: ds => d.chars names true ++ row names true [',', ' '] ds

@[simp] theorem row_nil (separator : List Char) : row names alone separator [] = [] := rfl

@[simp] theorem row_cons (separator : List Char) :
    row names alone separator (d :: ds) =
      separator ++ (d.chars names alone ++ row names alone separator ds) := by
  simp [row]

theorem intercalate_cons (separator w : List Char) (ws : List (List Char)) :
    separator.intercalate (w :: ws) = w ++ ws.flatMap (separator ++ ·) := by
  induction ws generalizing w with
  | nil => simp
  | cons x ws ih => simp [List.intercalate_cons_cons, ih]

theorem parenthesized_toList (wrap : Bool) (text : String) :
    (parenthesized wrap text).toList = if wrap then '(' :: (text.toList ++ [')']) else text.toList := by
  cases wrap with
  | false => rfl
  | true => simp [parenthesized]

theorem intercalate_texts (ds : List Datum) :
    [',', ' '].intercalate ((texts names true ds).map String.toList) = listing names ds := by
  rw [texts_eq_map, List.map_map]
  cases ds with
  | nil => rfl
  | cons d ds =>
    rw [List.map_cons, intercalate_cons, List.flatMap_map]
    rfl

theorem chars_number (v : Int64) : (number v).chars names true = v.toInt.repr.toList := by
  simp [chars, text_number, parenthesized_toList]

theorem chars_tuple (parts : List Datum) :
    (tuple parts).chars names alone = '(' :: (listing names parts ++ [')']) := by
  simp [chars, text_tuple, intercalate_texts]

theorem chars_list (items : List Datum) :
    (list items).chars names alone = '[' :: (listing names items ++ [']']) := by
  simp [chars, text_list, intercalate_texts]

theorem chars_named (symbol : SymbolId) (args : List Datum) :
    (named symbol args).chars names true = (names symbol).toList ++ row names false [' '] args := by
  simp [chars, text_named, parenthesized_toList, String.toList_intercalate, intercalate_cons, texts_eq_map,
    List.flatMap_map, row]

/-- Parentheses make all the difference between a text inside another and one that stands alone. -/
theorem chars_inside (d : Datum) : d.chars names false =
    if d.wraps then '(' :: (d.chars names true ++ [')']) else d.chars names true := by
  cases d with
  | number v => simp [chars, text_number, parenthesized_toList, wraps]
  | tuple parts => simp [chars_tuple, wraps]
  | list items => simp [chars_list, wraps]
  | named symbol args => simp [chars, text_named, parenthesized_toList, wraps]

/-! ## Beginnings -/

/-- The first character tells the kinds of data from each other. -/
def Begins : Datum → Char → Prop
  | .number _, c => c.isDigit = true ∨ c = '-'
  | .tuple _, c => c = '('
  | .list _, c => c = '['
  | .named _ _, c => c ∉ delimiters ∧ c.isDigit = false ∧ c ≠ '-'

/-- Both data are numbers, tuples, lists, or named. -/
inductive Alike : Datum → Datum → Prop where
  | numbers (v v' : Int64) : Alike (.number v) (.number v')
  | tuples (ds ds' : List Datum) : Alike (.tuple ds) (.tuple ds')
  | lists (ds ds' : List Datum) : Alike (.list ds) (.list ds')
  | named (id id' : SymbolId) (ds ds' : List Datum) : Alike (.named id ds) (.named id' ds')

theorem Begins.alike {c : Char} (h : d.Begins c) (h' : d'.Begins c) : Alike d d' := by
  have open_ : ∀ x ∈ ['(', '['], x.isDigit = false ∧ x ≠ '-' ∧ x ∈ delimiters :=
    List.forall_iff_forall_mem.mp (by decide)
  cases d <;> cases d' <;> simp only [Begins] at h h' <;> first | constructor | grind

theorem Begins.not_closing {c : Char} (h : d.Begins c) : c ∉ [',', ')', ']'] := by
  have each : ∀ x ∈ [',', ')', ']'], x.isDigit = false ∧ x ≠ '-' ∧ x ≠ '(' ∧ x ≠ '[' ∧ x ∈ delimiters :=
    List.forall_iff_forall_mem.mp (by decide)
  cases d <;> simp only [Begins] at h <;> grind

theorem chars_begin (vocabulary : Vocabulary V names) (spelled : d.Over V) :
    ∃ c cs, d.chars names true = c :: cs ∧ d.Begins c := by
  cases spelled with
  | number v =>
    obtain ⟨c, cs, begins, first, -⟩ := numeral_begins v.toInt
    exact ⟨c, cs, (chars_number v).trans begins, first⟩
  | tuple => exact ⟨_, _, chars_tuple _, rfl⟩
  | list => exact ⟨_, _, chars_list _, rfl⟩
  | @named symbol args known =>
    have identifier := vocabulary.identifier symbol known
    obtain ⟨c, first, kind⟩ := identifier.begins
    obtain ⟨cs, begins⟩ := List.head?_eq_some_iff.mp first
    refine ⟨c, cs ++ row names false [' '] args, ?_, identifier.solid c ?_, kind⟩
    · rw [chars_named, begins]
      rfl
    · rw [begins]
      exact List.mem_cons_self

/-- Texts that begin alike are of data that are alike. -/
theorem alike_of_chars (vocabulary : Vocabulary V names) (spelled : d.Over V) (spelled' : d'.Over V)
    (same : d.chars names true ++ r = d'.chars names true ++ r') : Alike d d' := by
  obtain ⟨c, cs, text, begins⟩ := chars_begin vocabulary spelled
  obtain ⟨c', cs', text', begins'⟩ := chars_begin vocabulary spelled'
  rw [text, text'] at same
  obtain ⟨rfl, -⟩ := List.cons.inj same
  exact begins.alike begins'

/-! ## Reading -/

/-- What can stand behind a text: a blank only where it is inside another text. -/
def Follows (alone : Bool) (r : List Char) : Prop :=
  ∀ c ∈ r.head?, c ∈ [',', ')', ']'] ∨ alone = false ∧ c = ' '

theorem Follows.bounded (h : Follows alone r) : Bounded r := fun c hc => by
  rcases h c hc with closing | ⟨-, rfl⟩
  · have each : ∀ x ∈ [',', ')', ']'], x ∈ delimiters := List.forall_iff_forall_mem.mp (by decide)
    exact each c closing
  · decide

theorem follows_of_closing {c : Char} (closing : c ∈ [',', ')', ']']) (r : List Char) :
    Follows alone (c :: r) := fun x hx => by
  cases hx
  exact .inl closing

theorem follows_nil : Follows alone [] := nofun

/-- However it goes on, the text of this datum is read back as the datum, and up to where it ends. -/
def Reads (names : SymbolId → String) (V : SymbolId → Prop) (d : Datum) : Prop :=
  ∀ alone d' r r', Over V d' → Follows alone r → Follows alone r' →
    d.chars names alone ++ r = d'.chars names alone ++ r' → d = d' ∧ r = r'

/-- The text without parentheses around it is read back, where there need be none around it. -/
def ReadsBare (names : SymbolId → String) (V : SymbolId → Prop) (d : Datum) : Prop :=
  ∀ alone d' r r', Over V d' → Follows alone r → Follows alone r' →
    (alone = false → d.wraps = false ∧ d'.wraps = false) →
    d.chars names true ++ r = d'.chars names true ++ r' → d = d' ∧ r = r'

theorem follows_row {s : Char} {separator : List Char} (step : ∀ x, Follows alone (s :: x))
    (hr : Follows alone r) : Follows alone (row names alone (s :: separator) ds ++ r) := by
  cases ds with
  | nil => exact hr
  | cons d ds =>
    rw [row_cons]
    exact step _

/-- A row ends where no separator follows. -/
theorem row_inj {s : Char} {separator : List Char} (each : ∀ d ∈ ds, d.Reads names V)
    (spelled' : ∀ d ∈ ds', d.Over V) (step : ∀ x, Follows alone (s :: x)) (hr : Follows alone r)
    (hr' : Follows alone r') (ends : r.head? ≠ some s) (ends' : r'.head? ≠ some s)
    (same : row names alone (s :: separator) ds ++ r = row names alone (s :: separator) ds' ++ r') :
    ds = ds' ∧ r = r' := by
  induction ds generalizing ds' with
  | nil =>
    cases ds' with
    | nil => exact ⟨rfl, same⟩
    | cons d' ds' =>
      rw [row_nil, row_cons, List.nil_append] at same
      exact absurd (by rw [same]; rfl) ends
  | cons d ds ih =>
    cases ds' with
    | nil =>
      rw [row_nil, row_cons, List.nil_append] at same
      exact absurd (by rw [← same]; rfl) ends'
    | cons d' ds' =>
      simp only [row_cons, List.append_assoc] at same
      have rest := List.append_cancel_left same
      obtain ⟨rfl, tail⟩ := each d List.mem_cons_self alone d' _ _ (spelled' d' List.mem_cons_self)
        (follows_row step hr) (follows_row step hr') rest
      obtain ⟨rfl, rfl⟩ := ih (fun x hx => each x (List.mem_cons_of_mem _ hx))
        (fun x hx => spelled' x (List.mem_cons_of_mem _ hx)) tail
      exact ⟨rfl, rfl⟩

/-- A closing bracket ends what is listed. -/
theorem listing_inj (vocabulary : Vocabulary V names) {z : Char} (closing : z ∈ [')', ']'])
    (spelled : ∀ d ∈ ds, d.Over V) (spelled' : ∀ d ∈ ds', d.Over V) (each : ∀ d ∈ ds, d.Reads names V)
    (same : listing names ds ++ z :: r = listing names ds' ++ z :: r') : ds = ds' ∧ r = r' := by
  have close : ∀ x, Follows true (z :: x) := follows_of_closing (List.mem_cons_of_mem _ closing)
  have step : ∀ x, Follows true (',' :: x) := follows_of_closing List.mem_cons_self
  have other : z ≠ ',' := by
    rintro rfl
    exact absurd closing (by decide)
  have stops : ∀ x : List Char, (z :: x).head? ≠ some ',' := fun x h => other (Option.some.inj h)
  -- no text begins with the bracket that closes
  have filled : ∀ d : Datum, d.Over V → ∀ x y z', z' ∈ [')', ']'] →
      d.chars names true ++ x ≠ z' :: y := fun d hd x y z' hz' same => by
    obtain ⟨c, cs, text, begins⟩ := chars_begin vocabulary hd
    rw [text] at same
    obtain ⟨rfl, -⟩ := List.cons.inj same
    exact begins.not_closing (List.mem_cons_of_mem _ hz')
  cases ds with
  | nil =>
    cases ds' with
    | nil => exact ⟨rfl, (List.cons.inj same).2⟩
    | cons d' ds' =>
      rw [listing, listing, List.nil_append, List.append_assoc] at same
      exact absurd same.symm (filled d' (spelled' d' List.mem_cons_self) _ _ z closing)
  | cons d ds =>
    cases ds' with
    | nil =>
      rw [listing, listing, List.nil_append, List.append_assoc] at same
      exact absurd same (filled d (spelled d List.mem_cons_self) _ _ z closing)
    | cons d' ds' =>
      rw [listing, listing, List.append_assoc, List.append_assoc] at same
      obtain ⟨rfl, rest⟩ := each d List.mem_cons_self true d' _ _ (spelled' d' List.mem_cons_self)
        (follows_row step (close _)) (follows_row step (close _)) same
      obtain ⟨rfl, last⟩ := row_inj (fun x hx => each x (List.mem_cons_of_mem _ hx))
        (fun x hx => spelled' x (List.mem_cons_of_mem _ hx)) step (close _) (close _) (stops _) (stops _) rest
      exact ⟨rfl, (List.cons.inj last).2⟩

theorem number_readsBare (vocabulary : Vocabulary V names) (v : Int64) : (number v).ReadsBare names V := by
  intro alone d' r r' spelled' hr hr' _ same
  cases alike_of_chars vocabulary (.number v) spelled' same with
  | numbers _ v' =>
    rw [chars_number, chars_number] at same
    obtain ⟨numeral, rfl⟩ := words_inj (numeral_solid _) (numeral_solid _) hr.bounded
      hr'.bounded same
    exact ⟨congrArg _ (Int64.toInt_inj.mp (numeral_inj numeral)), rfl⟩

theorem tuple_readsBare (vocabulary : Vocabulary V names) (spelled : (tuple ds).Over V)
    (each : ∀ d ∈ ds, d.Reads names V) : (tuple ds).ReadsBare names V := by
  intro alone d' r r' spelled' _ _ _ same
  cases alike_of_chars vocabulary spelled spelled' same with
  | tuples _ ds' =>
    cases spelled with | tuple _ spelled =>
    cases spelled' with | tuple _ spelled' =>
    rw [chars_tuple, chars_tuple, List.cons_append, List.cons_append, List.append_assoc,
      List.append_assoc] at same
    obtain ⟨rfl, rfl⟩ := listing_inj vocabulary (by decide) spelled spelled' each (List.cons.inj same).2
    exact ⟨rfl, rfl⟩

theorem list_readsBare (vocabulary : Vocabulary V names) (spelled : (list ds).Over V)
    (each : ∀ d ∈ ds, d.Reads names V) : (list ds).ReadsBare names V := by
  intro alone d' r r' spelled' _ _ _ same
  cases alike_of_chars vocabulary spelled spelled' same with
  | lists _ ds' =>
    cases spelled with | list spelled =>
    cases spelled' with | list spelled' =>
    rw [chars_list, chars_list, List.cons_append, List.cons_append, List.append_assoc,
      List.append_assoc] at same
    obtain ⟨rfl, rfl⟩ := listing_inj vocabulary (by decide) spelled spelled' each (List.cons.inj same).2
    exact ⟨rfl, rfl⟩

theorem named_readsBare (vocabulary : Vocabulary V names) {id : SymbolId} (spelled : (named id ds).Over V)
    (each : ∀ d ∈ ds, d.Reads names V) : (named id ds).ReadsBare names V := by
  intro alone d' r r' spelled' hr hr' plain same
  cases alike_of_chars vocabulary spelled spelled' same with
  | named _ id' _ ds' =>
    cases spelled with | named known spelled =>
    cases spelled' with | named known' spelled' =>
    have blank : ∀ x, Follows false (' ' :: x) := fun x c hc => by
      cases hc
      exact .inr ⟨rfl, rfl⟩
    have inside : ∀ {x}, Follows alone x → Follows false x := fun hx c hc =>
      (hx c hc).imp_right fun h => ⟨rfl, h.2⟩
    rw [chars_named, chars_named, List.append_assoc, List.append_assoc] at same
    obtain ⟨name, rest⟩ := words_inj (vocabulary.identifier id known).solid
      (vocabulary.identifier id' known').solid (follows_row blank (inside hr)).bounded
      (follows_row blank (inside hr')).bounded same
    obtain rfl := vocabulary.distinct id id' known known' (String.toList_inj.mp name)
    cases alone with
    | false =>
      -- what may be followed by a blank has no arguments
      obtain ⟨none, none'⟩ := plain rfl
      simp only [wraps, Bool.not_eq_false', List.isEmpty_iff] at none none'
      subst none none'
      exact ⟨rfl, rest⟩
    | true =>
      have ends : ∀ x, Follows true x → x.head? ≠ some ' ' := fun x hx blank => by
        rcases hx ' ' blank with closing | ⟨inside, -⟩
        · exact absurd closing (by decide)
        · cases inside
      obtain ⟨rfl, rfl⟩ := row_inj each spelled' blank (inside hr) (inside hr') (ends r hr) (ends r' hr') rest
      exact ⟨rfl, rfl⟩

/-- Parentheses around a datum are not those of a tuple, as no tuple has one part. -/
theorem listing_ne_wrapped (vocabulary : Vocabulary V names) (spelled : d.Over V) (several : ds.length ≠ 1)
    (split : ∀ p ∈ ds, ∀ x, Follows true x →
      p.chars names true ++ x = d.chars names true ++ ')' :: r → x = ')' :: r) :
    listing names ds ++ ')' :: r' ≠ d.chars names true ++ ')' :: r := by
  intro same
  cases ds with
  | nil =>
    obtain ⟨c, cs, text, begins⟩ := chars_begin vocabulary spelled
    rw [text] at same
    obtain ⟨rfl, -⟩ := List.cons.inj same
    exact begins.not_closing (by decide)
  | cons p ps =>
    rw [listing, List.append_assoc] at same
    have rest := split p List.mem_cons_self _
      (follows_row (follows_of_closing (by decide)) (follows_of_closing (by decide) _)) same
    cases ps with
    | nil => exact several rfl
    | cons q ps =>
      rw [row_cons] at rest
      exact absurd (List.cons.inj rest).1 (by decide)

example : (tuple [number (-3)]).text (fun _ => "") false = (number (-3)).text (fun _ => "") false := by
  decide +kernel

/-- A datum that is read back without its parentheses is read back with them. -/
theorem ReadsBare.reads (vocabulary : Vocabulary V names) (spelled : d.Over V) (bare : d.ReadsBare names V)
    (each : ∀ ds, d = tuple ds → ∀ p ∈ ds, p.Reads names V) : d.Reads names V := by
  intro alone d' r r' spelled' hr hr' same
  cases alone with
  | true => exact bare true d' r r' spelled' hr hr' nofun same
  | false =>
    have close : ∀ x, Follows true (')' :: x) := follows_of_closing (by decide)
    -- text in parentheses begins like a tuple
    have tupled : ∀ {x d : Datum} {u v}, d.Over V →
        '(' :: (x.chars names true ++ [')']) ++ u = d.chars names true ++ v →
        ∃ ds, d = tuple ds ∧ x.chars names true ++ ')' :: u = listing names ds ++ ')' :: v :=
      fun {x d u v} spelled same => by
        obtain ⟨c, cs, text, begins⟩ := chars_begin vocabulary spelled
        have first := same
        rw [text] at first
        obtain ⟨rfl, -⟩ := List.cons.inj first
        cases d with
        | tuple ds =>
          refine ⟨ds, rfl, ?_⟩
          rw [chars_tuple, List.cons_append, List.cons_append, List.append_assoc, List.append_assoc] at same
          exact (List.cons.inj same).2
        | number => exact absurd begins (by simp [Begins])
        | list => exact absurd begins (by simp [Begins])
        | named => exact absurd begins.1 (by decide)
    rw [chars_inside, chars_inside] at same
    by_cases wrap : d.wraps = true <;> by_cases wrap' : d'.wraps = true <;>
      simp only [wrap, wrap', if_true, if_false, Bool.false_eq_true] at same
    · rw [List.cons_append, List.cons_append, List.append_assoc, List.append_assoc] at same
      obtain ⟨rfl, rest⟩ := bare true d' _ _ spelled' (close r) (close r') nofun (List.cons.inj same).2
      exact ⟨rfl, (List.cons.inj rest).2⟩
    · obtain ⟨ds, rfl, inner⟩ := tupled spelled' same
      cases spelled' with | tuple several spelled' =>
      refine absurd inner.symm (listing_ne_wrapped vocabulary spelled several fun p hp x hx same => ?_)
      exact (bare true p _ _ (spelled' p hp) (close r) hx nofun same.symm).2.symm
    · obtain ⟨ds, rfl, inner⟩ := tupled spelled same.symm
      cases spelled with | tuple several spelled =>
      refine absurd inner.symm (listing_ne_wrapped vocabulary spelled' several fun p hp x hx same => ?_)
      exact (each ds rfl p hp true d' _ _ spelled' hx (close r') same).2
    · exact bare false d' r r' spelled' hr hr' (fun _ => ⟨by simpa using wrap, by simpa using wrap'⟩) same

/-- Every datum over the vocabulary is read back. -/
theorem Over.reads (vocabulary : Vocabulary V names) (spelled : d.Over V) : d.Reads names V := by
  induction spelled with
  | number v => exact (number_readsBare vocabulary v).reads vocabulary (.number v) nofun
  | @tuple parts several each ih =>
    refine (tuple_readsBare vocabulary (.tuple several each) ih).reads vocabulary (.tuple several each) ?_
    rintro _ ⟨⟩
    exact ih
  | list each ih => exact (list_readsBare vocabulary (.list each) ih).reads vocabulary (.list each) nofun
  | named known each ih =>
    exact (named_readsBare vocabulary (.named known each) ih).reads vocabulary (.named known each) nofun

/-- The text of a datum determines the datum. -/
theorem Over.text_inj (vocabulary : Vocabulary V names) (spelled : d.Over V) (spelled' : d'.Over V)
    (same : d.text names alone = d'.text names alone) : d = d' :=
  (spelled.reads vocabulary alone d' [] [] spelled' follows_nil follows_nil
    (by simpa [chars] using congrArg String.toList same)).1

end Datum

end ChoiceGraph
