import WeakHead.Term.Reader

/-!
# The grammar of terms

`Derives` states the notation as a grammar over token lists, without saying how a term is found.

Main statement: a reader that starts on a token list which derives a term goes through all of it and
has then read that term.
-/

namespace WeakHead

mutual

/-- A token list is a term. -/
inductive Derives : List Token → Term → Prop where
  | var (name : String) : Derives [.ident name] (.var name)
  | abs {binder : String} {ts : List Token} {body : Term} :
    Derives ts body → Derives (.lambda :: .ident binder :: .dot :: ts) (.abs binder body)
  | binding {binder : String} {vs bs : List Token} {value body : Term} :
    Derives vs value → Derives bs body →
    Derives (.letWord :: .ident binder :: .equals :: (vs ++ .inWord :: bs))
      (.app (.abs binder body) value)
  | group {ts : List Token} {t : Term} :
    DerivesItems ts t → Derives (.openParen :: (ts ++ [.closeParen])) t

/-- A token list is what stands in a group: terms one after another, applied from the left. -/
inductive DerivesItems : List Token → Term → Prop where
  | first {ts : List Token} {t : Term} : Derives ts t → DerivesItems ts t
  | more {ts us : List Token} {fn arg : Term} :
    DerivesItems ts fn → Derives us arg → DerivesItems (ts ++ us) (.app fn arg)

end

namespace Reader

/-- The reader after some more tokens, `none` if it does not admit one of them. -/
def advanceAll : Reader → List Token → Option Reader
  | r, [] => some r
  | r, t :: ts => (r.advance t).bind fun next => next.advanceAll ts

/-- A reader takes a token list piece by piece. -/
theorem advanceAll_append (r : Reader) (ts us : List Token) :
    r.advanceAll (ts ++ us) = (r.advanceAll ts).bind fun next => next.advanceAll us := by
  induction ts generalizing r with
  | nil => rfl
  | cons t ts ih =>
    simp only [List.cons_append, advanceAll]
    cases r.advance t with
    | none => rfl
    | some next => exact ih next

/-- Inside a group, a later term starts as any term does. -/
theorem advance_rest {fn : Term} {frames : List Frame} {t : Token} (ht : t ≠ .closeParen) :
    advance ⟨.rest fn, frames⟩ t = advance ⟨.start, .argument fn :: frames⟩ t := by
  cases t with
  | closeParen => exact absurd rfl ht
  | _ => rfl

/-- No term is empty or starts with a closing parenthesis, so a term in a group is read as
elsewhere. -/
theorem advanceAll_rest {fn : Term} {frames : List Frame} {ts : List Token} {t : Term}
    (h : Derives ts t) :
    advanceAll ⟨.rest fn, frames⟩ ts = advanceAll ⟨.start, .argument fn :: frames⟩ ts := by
  cases h <;> rw [advanceAll, advanceAll, advance_rest (by simp)]

/-- A reader at the start of a term goes through the tokens of that term and goes on behind it. -/
theorem advanceAll_of_derives {ts : List Token} {t : Term} (h : Derives ts t)
    (frames : List Frame) : advanceAll ⟨.start, frames⟩ ts = some (resume t frames) := by
  induction h using Derives.rec
    (motive_2 := fun ts t _ => ∀ frames,
      advanceAll ⟨.start, .group :: frames⟩ ts = some ⟨.rest t, frames⟩)
    generalizing frames with
  | var name => rfl
  | abs _ ih => simp [advanceAll, advance, enter, ih, resume]
  | binding _ _ ihv ihb =>
    simp [advanceAll, advance, enter, advanceAll_append, ihv, ihb, resume]
  | group _ ih =>
    simp [advanceAll, advance, enter, advanceAll_append, ih]
  | first _ ih => exact ih _
  | @more ts us fn arg _ hus ihts ihus =>
    rw [advanceAll_append, ihts, Option.bind_some, advanceAll_rest hus, ihus]
    rfl

end Reader

end WeakHead
