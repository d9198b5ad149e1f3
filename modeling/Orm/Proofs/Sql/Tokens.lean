import Orm.Proofs.Sql.Binding

/-!
# `Proofs.Sql.Tokens` — a text as longest tokens

What a statement text is read as is told here by a grammar instead of a reader. A text is cut from left
to right into tokens: a literal, a cast, a named marker, a positional marker, or any other character by
itself. Of the tokens that a text starts with the longest is taken. No token is an open literal, so that
a text with one is read up to it and no further.

Whether a token is the longest only hangs on the character behind it: a named marker must not go on
with a character of a name, and a colon by itself must not be the start of a cast or of a marker.

## Contents
- **Tokens.** `IsBody`, `Token`, `Token.Formed`, `Token.Leads`, `Reads`, `Unclosed`.
- **What ends a token.** `Token.Ends`, `leads_iff`, `exists_reads`.
- **The reader.** `Token.lexemes`, `readAll_token`, `Reads.readAll`, `lexemes_of_reads`,
  `lexemes_of_unclosed`.
-/

namespace Orm.Sql.Grammar

open Text

/-! ## Tokens -/

/-- What stands between the quotes of a literal: characters, and backslashes with any character
behind them. -/
inductive IsBody : List Char → Prop
  | nil : IsBody []
  | plain {c : Char} {rest : List Char} (quote : c ≠ '\x27') (backslash : c ≠ '\\') :
      IsBody rest → IsBody (c :: rest)
  | escaped {c : Char} {rest : List Char} : IsBody rest → IsBody ('\\' :: c :: rest)

/-- What a statement text is cut into. -/
inductive Token where
  | literal (body : List Char)
  /-- Two colons. -/
  | cast
  | named (name : List Char)
  | positional
  /-- A character by itself. -/
  | other (c : Char)
  deriving DecidableEq, Repr

namespace Token

/-- The text of a token. -/
def chars : Token → List Char
  | .literal body => '\x27' :: body ++ ['\x27']
  | .cast => [':', ':']
  | .named name => ':' :: name
  | .positional => ['?']
  | .other c => [c]

/-- The tokens that there are. A quote is none by itself, and a question mark is a marker. -/
inductive Formed : Token → Prop
  | literal {body : List Char} (h : IsBody body) : Formed (.literal body)
  | cast : Formed .cast
  | named {name : List Char} (h : isName name) : Formed (.named name)
  | positional : Formed .positional
  | other {c : Char} (quote : c ≠ '\x27') (mark : c ≠ '?') : Formed (.other c)

/-- A text starts with a token and with no longer one. -/
structure Leads (t : Token) (text rest : List Char) : Prop where
  formed : t.Formed
  made : text = t.chars ++ rest
  longest : ∀ u : Token, u.Formed → u.chars <+: text → u.chars.length ≤ t.chars.length

end Token

/-- The text of tokens. -/
def tokenChars (ts : List Token) : List Char :=
  ts.flatMap Token.chars

/-- A text is read as tokens, the longest one each time, up to a rest. -/
inductive Reads : List Char → List Token → List Char → Prop
  | stop (text : List Char) : Reads text [] text
  | next {text more rest : List Char} {t : Token} {ts : List Token} (first : t.Leads text more) :
      Reads more ts rest → Reads text (t :: ts) rest

/-- A text starts with the quote of a literal that is not closed. -/
def Unclosed (text : List Char) : Prop :=
  ∃ rest, text = '\x27' :: rest ∧ ∀ body, IsBody body → ¬ body ++ ['\x27'] <+: rest

@[simp]
theorem tokenChars_nil : tokenChars [] = [] := rfl

@[simp]
theorem tokenChars_cons (t : Token) (ts : List Token) :
    tokenChars (t :: ts) = t.chars ++ tokenChars ts := rfl

@[simp]
theorem tokenChars_append (a b : List Token) :
    tokenChars (a ++ b) = tokenChars a ++ tokenChars b := by
  simp [tokenChars]

theorem Token.chars_ne_nil {t : Token} : t.chars ≠ [] := by
  cases t <;> simp [Token.chars]

/-- The tokens and the rest make up the text. -/
theorem Reads.text {text rest : List Char} {ts : List Token} (h : Reads text ts rest) :
    text = tokenChars ts ++ rest := by
  induction h with
  | stop text => simp
  | next first _ ih => rw [first.made, ih, tokenChars_cons, List.append_assoc]

/-! ## What ends a token -/

/-- What stands behind a token does not go on with it. -/
def Token.Ends : Token → List Char → Prop
  | .named _, rest => ∀ c ∈ rest.head?, isNameChar c = false
  | .other c, rest => c = ':' → ∀ d ∈ rest.head?, d ≠ ':' ∧ isNameStart d = false
  | _, _ => True

/-- Without quotes and backslashes every text is a body. -/
theorem IsBody.of_forall {text : List Char} (h : ∀ c ∈ text, c ≠ '\x27' ∧ c ≠ '\\') : IsBody text := by
  induction text with
  | nil => exact .nil
  | cons c rest ih =>
    obtain ⟨⟨quote, backslash⟩, later⟩ := List.forall_mem_cons.mp h
    exact .plain quote backslash (ih later)

/-- Two literals at one place are one. -/
theorem IsBody.unique {a b rest : List Char} (ha : IsBody a) (hb : IsBody b)
    (h : b ++ ['\x27'] <+: a ++ '\x27' :: rest) : b = a := by
  induction ha generalizing b with
  | nil =>
    cases hb with
    | nil => rfl
    | plain quote =>
      rw [List.cons_append, List.nil_append, List.cons_prefix_cons] at h
      exact absurd h.1 quote
    | escaped =>
      rw [List.cons_append, List.nil_append, List.cons_prefix_cons] at h
      exact absurd h.1 (by decide)
  | plain quote backslash _ ih =>
    cases hb with
    | nil =>
      rw [List.nil_append, List.cons_append, List.cons_prefix_cons] at h
      exact absurd h.1.symm quote
    | plain _ _ hb =>
      rw [List.cons_append, List.cons_append, List.cons_prefix_cons] at h
      obtain ⟨rfl, h⟩ := h
      rw [ih hb h]
    | escaped =>
      simp only [List.cons_append, List.cons_prefix_cons] at h
      exact absurd h.1.symm backslash
  | escaped _ ih =>
    cases hb with
    | nil =>
      rw [List.nil_append, List.cons_append, List.cons_prefix_cons] at h
      exact absurd h.1 (by decide)
    | plain _ backslash =>
      rw [List.cons_append, List.cons_append, List.cons_prefix_cons] at h
      exact absurd h.1 backslash
    | escaped hb =>
      simp only [List.cons_append, List.cons_prefix_cons] at h
      obtain ⟨-, rfl, h⟩ := h
      rw [ih hb h]

/-- A name ends where the characters of names end. -/
theorem length_le_of_prefix {a b rest : List Char} (hb : ∀ c ∈ b, isNameChar c)
    (ends : ∀ c ∈ rest.head?, isNameChar c = false) (h : b <+: a ++ rest) : b.length ≤ a.length := by
  by_contra longer
  obtain ⟨more, h⟩ := h
  -- The name would have a character of the rest in it.
  obtain ⟨excess, rfl, hrest⟩ : ∃ excess, b = a ++ excess ∧ rest = excess ++ more := by
    rcases List.append_eq_append_iff.mp h with ⟨excess, ha, hmore⟩ | ⟨excess, hb, hrest⟩
    · rw [ha, List.length_append] at longer
      omega
    · exact ⟨excess, hb, hrest⟩
  cases excess with
  | nil => simp at longer
  | cons c cs =>
    have inside : isNameChar c = true := hb c (by simp)
    rw [ends c (by simp [hrest])] at inside
    cases inside

theorem isNameChar_of_mem {name : List Char} (h : isName name) : ∀ c ∈ name, isNameChar c := by
  cases name with
  | nil => simp
  | cons c rest =>
    simp only [isName, Bool.and_eq_true, List.all_eq_true] at h
    exact List.forall_mem_cons.mpr ⟨isNameChar_of_isNameStart h.1, h.2⟩

/-- A name that goes on is a name. -/
theorem isName_concat {name : List Char} {c : Char} (h : isName name) (hc : isNameChar c) :
    isName (name ++ [c]) := by
  cases name with
  | nil => cases h
  | cons d rest =>
    simp only [isName, Bool.and_eq_true] at h
    simp [isName, h.1, h.2, hc]

namespace Token

/-- The longest token ends where it does. -/
theorem Leads.ends {t : Token} {text rest : List Char} (h : t.Leads text rest) : t.Ends rest := by
  obtain ⟨formed, rfl, longest⟩ := h
  cases formed with
  | literal => trivial
  | cast => trivial
  | positional => trivial
  | @named name isName =>
    intro c hc
    obtain ⟨more, rfl⟩ := List.head?_eq_some_iff.mp hc
    by_contra goesOn
    have longer := longest (.named (name ++ [c])) (.named (isName_concat isName (by simpa using goesOn)))
      ⟨more, by simp [chars]⟩
    simp only [chars, List.length_cons, List.length_append] at longer
    omega
  | @other c =>
    rintro rfl d hd
    obtain ⟨more, rfl⟩ := List.head?_eq_some_iff.mp hd
    constructor
    · rintro rfl
      have longer := longest .cast .cast ⟨more, rfl⟩
      simp [chars] at longer
    · by_contra start
      have name : isName [d] := by simpa [isName] using start
      have longer := longest (.named [d]) (.named name) ⟨more, rfl⟩
      simp [chars] at longer

/-- Of the tokens that a literal starts with it is the longest. -/
theorem length_le_of_literal {t : Token} {body rest : List Char} (formed : t.Formed)
    (hb : IsBody body) (starts : (literal body).chars <+: t.chars ++ rest) :
    (literal body).chars.length ≤ t.chars.length := by
  cases formed with
  | literal own =>
    simp only [chars, List.cons_append, List.cons_prefix_cons, true_and, List.append_assoc,
      List.nil_append] at starts
    obtain rfl := own.unique hb starts
    exact Nat.le_refl _
  | cast => simp [chars] at starts
  | named => simp [chars] at starts
  | positional => simp [chars] at starts
  | other quote => simp [chars, Ne.symm quote] at starts

/-- A cast is no longer than a token that ends where it does. -/
theorem length_le_of_cast {t : Token} {rest : List Char} (formed : t.Formed) (ends : t.Ends rest)
    (starts : cast.chars <+: t.chars ++ rest) : cast.chars.length ≤ t.chars.length := by
  cases formed with
  | literal => simp [chars] at starts
  | cast => exact Nat.le_refl _
  | @named name isName =>
    cases name with
    | nil => cases isName
    | cons c cs => simp [chars]
  | positional => simp [chars] at starts
  | @other c =>
    simp only [chars, List.cons_append, List.nil_append, List.cons_prefix_cons] at starts
    obtain ⟨rfl, more, rfl⟩ := starts
    have colon := ends rfl ':' rfl
    exact absurd rfl colon.1

/-- A named marker is no longer than a token that ends where it does. -/
theorem length_le_of_named {t : Token} {name rest : List Char} (formed : t.Formed)
    (ends : t.Ends rest) (hn : isName name) (starts : (named name).chars <+: t.chars ++ rest) :
    (named name).chars.length ≤ t.chars.length := by
  cases formed with
  | literal => simp [chars] at starts
  | cast =>
    -- A name does not begin with a colon.
    cases name with
    | nil => cases hn
    | cons c cs =>
      simp only [chars, List.cons_append, List.cons_prefix_cons, true_and] at starts
      obtain ⟨rfl, -⟩ := starts
      cases hn
  | named =>
    simp only [chars, List.cons_append, List.cons_prefix_cons, true_and] at starts
    have shorter := length_le_of_prefix (isNameChar_of_mem hn) ends starts
    simpa [chars] using shorter
  | positional => simp [chars] at starts
  | @other c =>
    cases name with
    | nil => cases hn
    | cons d cs =>
      simp only [chars, List.cons_append, List.nil_append, List.cons_prefix_cons] at starts
      obtain ⟨rfl, more, rfl⟩ := starts
      have start := ends rfl d rfl
      simp [isName, start.2] at hn

/-- A token that ends where it does is the longest. -/
theorem Formed.leads {t : Token} {rest : List Char} (formed : t.Formed) (ends : t.Ends rest) :
    t.Leads (t.chars ++ rest) rest := by
  refine ⟨formed, rfl, ?_⟩
  have some : 0 < t.chars.length := List.length_pos_of_ne_nil chars_ne_nil
  intro u hu starts
  cases hu with
  | literal body => exact length_le_of_literal formed body starts
  | cast => exact length_le_of_cast formed ends starts
  | named name => exact length_le_of_named formed ends name starts
  | positional => exact some
  | other => exact some

/-- **The longest token is the one that ends where it does.** -/
theorem leads_iff {t : Token} {rest : List Char} :
    t.Leads (t.chars ++ rest) rest ↔ t.Formed ∧ t.Ends rest :=
  ⟨fun h => ⟨h.formed, h.ends⟩, fun h => h.1.leads h.2⟩

/-- A text that starts with a token starts with a longest one. -/
theorem exists_leads {u : Token} {text : List Char} (formed : u.Formed) (starts : u.chars <+: text) :
    ∃ (t : Token) (rest : List Char), t.Leads text rest := by
  -- By induction on how much of the text is behind the token: a longer one leaves less.
  induction hk : text.length - u.chars.length using Nat.strongRecOn generalizing u with
  | ind k ih =>
    by_cases longest : ∀ v : Token, v.Formed → v.chars <+: text → v.chars.length ≤ u.chars.length
    · obtain ⟨rest, made⟩ := starts
      exact ⟨u, rest, formed, made.symm, longest⟩
    · push Not at longest
      obtain ⟨v, formed', starts', longer⟩ := longest
      have bound : v.chars.length ≤ text.length := starts'.length_le
      exact ih (text.length - v.chars.length) (by omega) formed' starts' rfl

end Token

/-- A text that starts with no token starts with an open literal. -/
theorem unclosed_of_none {c : Char} {more : List Char}
    (none : ∀ u : Token, u.Formed → ¬ u.chars <+: c :: more) : Unclosed (c :: more) := by
  have quote : c = '\x27' := by
    by_contra other
    by_cases mark : c = '?'
    · apply none .positional .positional
      simp [Token.chars, mark]
    · apply none (.other c) (.other other mark)
      simp [Token.chars]
  subst quote
  refine ⟨more, rfl, ?_⟩
  intro body isBody closed
  apply none (.literal body) (.literal isBody)
  simpa [Token.chars] using closed

/-- **Every text is read** to its end or up to an open literal. -/
theorem exists_reads (text : List Char) :
    ∃ ts rest, Reads text ts rest ∧ (rest = [] ∨ Unclosed rest) := by
  induction hk : text.length using Nat.strongRecOn generalizing text with
  | ind k ih =>
    cases text with
    | nil => exact ⟨[], [], .stop [], .inl rfl⟩
    | cons c more =>
      by_cases none : ∀ u : Token, u.Formed → ¬ u.chars <+: c :: more
      · exact ⟨[], c :: more, .stop _, .inr (unclosed_of_none none)⟩
      · push Not at none
        obtain ⟨u, formed, starts⟩ := none
        obtain ⟨t, behind, leads⟩ := Token.exists_leads formed starts
        have some : 0 < t.chars.length := List.length_pos_of_ne_nil Token.chars_ne_nil
        have whole : (c :: more).length = t.chars.length + behind.length := by
          rw [leads.made, List.length_append]
        obtain ⟨ts, rest, reads, ending⟩ := ih behind.length (by omega) behind rfl
        exact ⟨t :: ts, rest, .next leads reads, ending⟩

/-! ## The reader -/

/-- What the reader makes of a token. It has no name for a cast. -/
def Token.lexemes : Token → List Lexeme
  | .literal body => [.literal ('\x27' :: body ++ ['\x27'])]
  | .cast => [.char ':', .char ':']
  | .named name => [.named name]
  | .positional => [.positional]
  | .other c => [.char c]

/-- The lexemes of tokens. -/
def tokenLexemes (ts : List Token) : List Lexeme :=
  ts.flatMap Token.lexemes

@[simp]
theorem tokenLexemes_nil : tokenLexemes [] = [] := rfl

@[simp]
theorem tokenLexemes_cons (t : Token) (ts : List Token) :
    tokenLexemes (t :: ts) = t.lexemes ++ tokenLexemes ts := rfl

theorem Token.not_reference (t : Token) (n : List Char) : .reference n ∉ t.lexemes := by
  cases t <;> simp [Token.lexemes]

/-- The body of a literal leaves it open. -/
theorem IsBody.readFrom {body : List Char} (h : IsBody body) (read : List Char) :
    readFrom (.literal read) body = ([], .literal (body.reverse ++ read)) := by
  induction h generalizing read with
  | nil => rfl
  | plain quote backslash _ ih => simp [Sql.readFrom, step, quote, backslash, ih]
  | escaped _ ih => simp [Sql.readFrom, step, ih]

/-- A literal is settled. -/
theorem IsBody.settled {body : List Char} (h : IsBody body) :
    Settled (Token.literal body).chars (Token.literal body).lexemes := by
  have opened : Sql.readFrom .plain ['\x27'] = ([], .literal ['\x27']) := rfl
  have closed : ∀ read, Sql.readFrom (.literal read) ['\x27'] =
      ([.literal (read.reverse ++ ['\x27'])], .plain) := by
    intro read
    simp [Sql.readFrom, step]
  have text : (Token.literal body).chars = ['\x27'] ++ (body ++ ['\x27']) := by
    simp [Token.chars]
  unfold Settled
  rw [text, readFrom_append, opened, readFrom_append, h.readFrom, closed]
  simp [Token.lexemes]

/-- The characters of a name leave it open. -/
theorem readFrom_name {name : List Char} (h : ∀ c ∈ name, isNameChar c) (read : List Char) :
    readFrom (.name read) name = ([], .name (name.reverse ++ read)) := by
  induction name generalizing read with
  | nil => rfl
  | cons c rest ih =>
    have here : isNameChar c = true := h c List.mem_cons_self
    have later := ih fun c' hc' => h c' (List.mem_cons_of_mem _ hc')
    simp [readFrom, step, here, later]

/-- A named marker ends in front of what is no character of a name. -/
theorem readAll_name {read rest : List Char} (ends : ∀ c ∈ rest.head?, isNameChar c = false) :
    readAll (.name read) rest = (readAll .plain rest).map ([.named read.reverse] ++ ·) := by
  cases rest with
  | nil => simp [finish, Except.map]
  | cons c more =>
    have noName : isNameChar c = false := ends c rfl
    rw [readAll_cons, readAll_cons, map_map]
    simp [step, noName]

/-- A colon by itself is a character. -/
theorem readAll_colon {rest : List Char}
    (ends : ∀ d ∈ rest.head?, d ≠ ':' ∧ isNameStart d = false) :
    readAll .colon rest = (readAll .plain rest).map ([.char ':'] ++ ·) := by
  cases rest with
  | nil => simp [finish, Except.map]
  | cons d more =>
    obtain ⟨noColon, noStart⟩ := ends d rfl
    rw [readAll_cons, readAll_cons, map_map]
    simp [step, stepAfter, noColon, noStart]

/-- A settled token is read, and then the rest, up to references. -/
theorem bare_readAll_of_settled {t : Token} (settled : Settled t.chars t.lexemes) (rest : List Char) :
    (readAll .plain (t.chars ++ rest)).map bare =
      (readAll .plain rest).map fun ls => t.lexemes ++ bare ls := by
  rw [settled.readAll_append, map_map]
  simp [bare_of_forall t.not_reference]

/-- **A token that ends where it does is read**, and then the rest as if it were alone, up to
references. -/
theorem readAll_token {t : Token} {rest : List Char} (formed : t.Formed) (ends : t.Ends rest) :
    (readAll .plain (t.chars ++ rest)).map bare =
      (readAll .plain rest).map fun ls => t.lexemes ++ bare ls := by
  cases formed with
  | literal body => exact bare_readAll_of_settled body.settled rest
  | cast => exact bare_readAll_of_settled (t := .cast) rfl rest
  | positional => exact bare_readAll_of_settled (t := .positional) rfl rest
  | @named name isName =>
    cases name with
    | nil => cases isName
    | cons c cs =>
      have chars := isNameChar_of_mem isName
      have start : isNameStart c = true := by
        simp only [Sql.isName, Bool.and_eq_true] at isName
        exact isName.1
      have opened : readFrom .plain [':', c] = ([], .name [c]) := by
        have colon : c ≠ ':' := by
          rintro rfl
          cases start
        simp [readFrom, step, stepPlain, colon, start]
      have named : readFrom (.name [c]) cs = ([], .name (cs.reverse ++ [c])) :=
        readFrom_name (fun d hd => chars d (List.mem_cons_of_mem _ hd)) [c]
      have text : (Token.named (c :: cs)).chars ++ rest = [':', c] ++ (cs ++ rest) := rfl
      rw [text, readAll_append, opened, readAll_append, named, readAll_name ends]
      simp [map_map, Token.lexemes]
  | @other c quote mark =>
    by_cases colon : c = ':'
    · subst colon
      have opened : readFrom .plain [':'] = ([], .colon) := rfl
      show (readAll .plain ([':'] ++ rest)).map bare = _
      rw [readAll_append, opened, readAll_colon (ends rfl)]
      simp [map_map, Token.lexemes]
    by_cases brace : c = '{'
    · subst brace
      have opened : readFrom .plain ['{'] = ([], .within false []) := rfl
      have within := bare_readAll_within false [] rest
      show (readAll .plain (['{'] ++ rest)).map bare = _
      rw [readAll_append, opened, map_map]
      simpa [Token.lexemes] using within
    · have plain : isPlain c := by simp [isPlain, quote, mark, colon, brace]
      exact bare_readAll_of_settled (Settled.of_isPlain (by simpa [Token.chars] using plain)) rest

/-- Tokens are read one after the other, and then the rest as if it were alone, up to references. -/
theorem Reads.readAll {text rest : List Char} {ts : List Token} (h : Reads text ts rest) :
    (readAll .plain text).map bare =
      (readAll .plain rest).map fun ls => tokenLexemes ts ++ bare ls := by
  induction h with
  | stop text => simp
  | @next text more rest t ts first _ ih =>
    have later := congrArg (Except.map fun ls => t.lexemes ++ ls) ih
    rw [map_map, map_map] at later
    rw [first.made, readAll_token first.formed first.ends, later]
    simp

/-- A text that is read to its end has the lexemes of its tokens, up to references. -/
theorem lexemes_of_reads {text : List Char} {ts : List Token} (h : Reads text ts []) :
    ∃ ls, lexemes text = .ok ls ∧ bare ls = tokenLexemes ts := by
  have read : (readAll .plain text).map bare = .ok (tokenLexemes ts) := by
    rw [h.readAll, readAll_nil]
    simp [finish, Except.map]
  obtain ⟨ls, own, same⟩ := map_eq_ok.mp read
  exact ⟨ls, lexemes_eq_ok_iff.mpr own, same⟩

/-- A literal without its last quote stays open. -/
theorem readAll_literal {rest : List Char} (h : ∀ body, IsBody body → ¬ body ++ ['\x27'] <+: rest)
    (read : List Char) : readAll (.literal read) rest = .error (read.reverse ++ rest) := by
  -- A backslash takes the character behind it along, so the induction is on the length.
  induction hk : rest.length using Nat.strongRecOn generalizing rest read with
  | ind k ih =>
    cases rest with
    | nil => simp [finish]
    | cons c more =>
      by_cases quote : c = '\x27'
      · subst quote
        exact absurd (by simp) (h [] .nil)
      by_cases backslash : c = '\\'
      · subst backslash
        cases more with
        | nil => simp [readAll_cons, step, finish, Except.map]
        | cons d more =>
          have open_ : ∀ body, IsBody body → ¬ body ++ ['\x27'] <+: more := by
            intro body isBody closed
            exact h ('\\' :: d :: body) (.escaped isBody) (by simpa using closed)
          have later := ih more.length (by simp at hk; omega) open_ (d :: '\\' :: read) rfl
          simp [readAll_cons, step, later, Except.map]
      · have open_ : ∀ body, IsBody body → ¬ body ++ ['\x27'] <+: more := by
          intro body isBody closed
          exact h _ (.plain quote backslash isBody) (by simpa using closed)
        have later := ih more.length (by simp at hk; omega) open_ (c :: read) rfl
        simp [readAll_cons, step, quote, backslash, later, Except.map]

/-- An open literal stays open. -/
theorem readAll_unclosed {text : List Char} (h : Unclosed text) : readAll .plain text = .error text := by
  obtain ⟨rest, rfl, none⟩ := h
  have open_ : readAll (.literal ['\x27']) rest = .error ('\x27' :: rest) := readAll_literal none _
  rw [readAll_cons]
  simp [step, stepPlain, open_, Except.map]

/-- A text with an open literal is refused at the byte where the literal starts. -/
theorem lexemes_of_unclosed {text rest : List Char} {ts : List Token} (h : Reads text ts rest)
    (open_ : Unclosed rest) : lexemes text = .error (.openLiteral (byteSize (tokenChars ts))) := by
  have read : (readAll .plain text).map bare = .error rest := by
    rw [h.readAll, readAll_unclosed open_]
    rfl
  have failed : finish (readFrom .plain text).2 = .error rest := by
    unfold readAll at read
    cases hf : finish (readFrom .plain text).2 with
    | error held =>
      rw [hf] at read
      exact read
    | ok last =>
      rw [hf] at read
      cases read
  have size : byteSize text = byteSize (tokenChars ts) + byteSize rest := by
    rw [h.text, byteSize_append]
  simp only [lexemes, failed, size, Nat.add_sub_cancel]

end Orm.Sql.Grammar
