import MessageSelector.Proofs.Reparsing

/-!
# String literals

A string is quoted by writing its quotes twice and putting a quote on either side. A scan takes
quotes in pairs from the left, so the first one without a partner closes the literal: a quoted
string is scanned whole in front of anything but one more quote (`textFrom_quote`, `text_quote`),
whatever quotes the string starts or ends with and whatever quotes follow later. Every string
literal of a scan is the quoted form of the string it stands for (`Found.quote_string?`), so no
string has two spellings.
-/

namespace MessageSelector

namespace Text

open Token (QuoteBody)

/-- Where quotes stand in pairs, halving the pairs and doubling the quotes again changes nothing. -/
theorem doubleQuotes_halveQuotes {body : List Char} (h : QuoteBody body) :
    doubleQuotes (halveQuotes body) = body := by
  induction h with
  | nil => rfl
  | pair _ ih => rw [halveQuotes, doubleQuotes, if_pos rfl, ih]
  | plain hc _ ih =>
    rw [halveQuotes.eq_2 _ _ fun _ hhead => absurd hhead hc, doubleQuotes, if_neg hc, ih]

theorem quote_unquote {text : String} {body : List Char} (hbody : QuoteBody body)
    (htext : text.toList = '\'' :: (body ++ ['\''])) : quote (unquote text) = text := by
  have hbetween : betweenQuotes text.toList = body := by
    rw [htext, betweenQuotes, if_pos (by simp), List.dropLast_concat]
  rw [unquote, hbetween, quote, String.toList_ofList, doubleQuotes_halveQuotes hbody, ← htext,
    String.ofList_toList]

end Text

namespace Token

/-- The text of a string literal is the quoted form of the string. -/
theorem Found.quote_string? {t : Token} (h : t.Found) (hk : t.kind = .string) :
    ∃ s, t.string? = some s ∧ Text.quote s = t.text := by
  obtain ⟨body, hbody, htext⟩ := h.quotedText hk
  exact ⟨Text.unquote t.text, string?_of_kind hk, Text.quote_unquote hbody htext⟩

/-- A quoted string is found in front of anything but one more quote. -/
theorem firstLexeme?_quote (s : String) {rest : List Char} (hrest : rest.head? ≠ some '\'') :
    firstLexeme? ((Text.quote s).toList ++ rest) =
      some (some .string, (Text.quote s).toList.length) := by
  have hfound := firstLexeme?_string (quoteBody_doubleQuotes s.toList) hrest
  rw [Text.quote, String.toList_ofList, List.cons_append, List.append_assoc,
    List.singleton_append, hfound]
  simp

end Token

namespace Scan

theorem textFrom_quote (s : String) {rest : List Char} (hrest : rest.head? ≠ some '\'')
    (offset : Nat) : textFrom offset ((Text.quote s).toList ++ rest) =
      push ⟨.string, Text.quote s, offset⟩ (textFrom (offset + (Text.quote s).length) rest) := by
  have hne : (Text.quote s).toList ≠ [] := by simp [Text.quote]
  rw [textFrom_token hne (Token.firstLexeme?_quote s hrest), String.length_toList]
  exact if_neg Bool.false_ne_true

/-- **Strings are read as they were quoted.** In front of a text that does not start with a quote,
a quoted string is scanned as one literal that stands for the string, and the text behind it as it
is scanned after so many characters. Every string literal that a scan finds in any text is the
quoted form of the string it stands for. -/
theorem text_quote :
    (∀ s rest : String, rest.toList.head? ≠ some '\'' →
      text (Text.quote s ++ rest) =
        push ⟨.string, Text.quote s, 0⟩ (textFrom (Text.quote s).length rest.toList) ∧
      Token.string? ⟨.string, Text.quote s, 0⟩ = some s) ∧
    ∀ input : String, ∀ t ∈ (text input).tokens, t.kind = .string →
      ∃ s, t.string? = some s ∧ Text.quote s = t.text := by
  constructor
  · intro s rest hrest
    have hscan := textFrom_quote s hrest 0
    rw [Nat.zero_add] at hscan
    refine ⟨by rw [text, String.toList_append, hscan], ?_⟩
    rw [Token.string?_of_kind rfl, Text.unquote_quote]
  · intro input t ht hk
    exact (scanned_of_mem ht).found.quote_string? hk

/-- Runs of quotes at both ends of a string, and a quote behind it that nothing closes. -/
theorem text_quote_runs :
    let literal : Token := ⟨.string, "'''''it''s'''", 0⟩
    let input := Text.quote "''it's'" ++ " <> 'b"
    " <> 'b".toList.head? ≠ some '\'' ∧
      text input = push literal (textFrom 13 " <> 'b".toList) ∧
      literal.string? = some "''it's'" ∧ literal ∈ (text input).tokens ∧
      ∃ s, literal.string? = some s ∧ Text.quote s = literal.text := by
  intro literal input
  have hquote : Text.quote "''it's'" = literal.text := by decide +kernel
  have hlength : literal.text.length = 13 := by decide +kernel
  have hrest : " <> 'b".toList.head? ≠ some '\'' := by decide
  obtain ⟨hscan, hstring⟩ := text_quote.1 "''it's'" " <> 'b" hrest
  rw [hquote] at hscan hstring
  have hmem : literal ∈ (text input).tokens := by
    rw [show input = literal.text ++ " <> 'b" by rw [← hquote], hscan]
    exact List.mem_cons_self
  rw [hlength, ← hquote] at hscan
  exact ⟨hrest, hscan, hstring, hmem, text_quote.2 input literal hmem rfl⟩

end Scan

end MessageSelector
