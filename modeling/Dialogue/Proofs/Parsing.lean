import Dialogue.Proofs.Grammar
/-!
Reading conditions. Main statement: the tokens that are read are the sentences of the grammar, each
with the one condition that it spells.
-/
namespace Dialogue.Condition

theorem free_iff {t : Token} {rest : List Token} :
    Free (kinds (t :: rest)) ↔
      (∃ text, t.kind = .word text) ∧ startsKeyword (t :: rest) = false := by
  rw [Free, ← startsKeyword_iff, Bool.not_eq_true, kinds_cons]
  refine and_congr_left fun _ => ⟨?_, ?_⟩
  · rintro ⟨text, after, h⟩
    exact ⟨text, (List.cons.inj h).1⟩
  · rintro ⟨text, h⟩
    exact ⟨text, kinds rest, by rw [h]⟩

theorem takeBare_free {t : Token} {rest : List Token} {text : String} (word : t.kind = .word text)
    (free : Free (kinds (t :: rest))) :
    takeBare (t :: rest) = (text :: (takeBare rest).1, (takeBare rest).2) := by
  simp [takeBare, word, (free_iff.mp free).2]

theorem takeBare_stop {ts : List Token} (stop : ¬ Free (kinds ts)) : takeBare ts = ([], ts) := by
  cases ts with
  | nil => rfl
  | cons t rest =>
    unfold takeBare
    split
    · next text word =>
      have keyword : startsKeyword (t :: rest) = true := by
        rw [free_iff, not_and, Bool.not_eq_false] at stop
        exact stop ⟨text, word⟩
      rw [if_pos keyword]
    · rfl

theorem bare_takeBare {ts : List Token} (free : Free (kinds ts)) :
    Bare (kinds ts) (takeBare ts).1 (kinds (takeBare ts).2) := by
  induction ts with
  | nil => obtain ⟨⟨text, after, h⟩, -⟩ := free; cases h
  | cons t rest ih =>
    obtain ⟨text, word⟩ := (free_iff.mp free).1
    rw [takeBare_free word free]
    rw [kinds_cons, word] at free ⊢
    by_cases more : Free (kinds rest)
    · exact .more free (ih more)
    · rw [takeBare_stop more]
      exact .last free more

theorem takeBare_bare {ks after : List Kind} {texts : List String} (h : Bare ks texts after)
    {ts : List Token} (hts : kinds ts = ks) :
    ∃ rest, takeBare ts = (texts, rest) ∧ kinds rest = after := by
  induction h generalizing ts with
  | last free stop =>
    obtain ⟨t, rest, rfl, word, rfl⟩ := kinds_eq_cons hts
    rw [← hts] at free
    rw [takeBare_free word free, takeBare_stop stop]
    exact ⟨rest, rfl, rfl⟩
  | more free words ih =>
    obtain ⟨t, rest, rfl, word, rfl⟩ := kinds_eq_cons hts
    rw [← hts] at free
    obtain ⟨last, htake, hlast⟩ := ih rfl
    rw [takeBare_free word free, htake]
    exact ⟨last, rfl, hlast⟩

variable {finish : Nat}

theorem operand_free {t : Token} {rest : List Token} {text : String} (word : t.kind = .word text)
    (free : Free (kinds (t :: rest))) :
    operand finish (t :: rest) = .ok
      (.bare (String.intercalate " " (takeBare (t :: rest)).1), (takeBare (t :: rest)).2) := by
  simp [operand, word, (free_iff.mp free).2]

theorem operand_sound {ts rest : List Token} {o : Operand}
    (h : operand finish ts = .ok (o, rest)) : o.Spelt (kinds ts) (kinds rest) := by
  revert h
  fun_cases operand finish ts with
  | case1 | case4 | case6 => nofun
  | case2 t rest name hkind =>
    rintro ⟨⟩
    rw [kinds_cons, hkind]
    exact .named name _
  | case3 t rest text hkind =>
    rintro ⟨⟩
    rw [kinds_cons, hkind]
    exact .quoted text _
  | case5 t rest text word unkeyed texts after htake =>
    rintro ⟨⟩
    have hbare := bare_takeBare (free_iff.mpr ⟨⟨text, word⟩, Bool.not_eq_true _ ▸ unkeyed⟩)
    rw [htake] at hbare
    exact .bare hbare

theorem operand_iff (finish : Nat) {ts : List Token} {o : Operand} {after : List Kind} :
    o.Spelt (kinds ts) after ↔ ∃ rest, operand finish ts = .ok (o, rest) ∧ kinds rest = after := by
  constructor
  · generalize hts : kinds ts = ks
    intro h
    cases h with
    | named name =>
      obtain ⟨t, rest, rfl, hkind, hrest⟩ := kinds_eq_cons hts
      exact ⟨rest, by simp [operand, hkind], hrest⟩
    | quoted text =>
      obtain ⟨t, rest, rfl, hkind, hrest⟩ := kinds_eq_cons hts
      exact ⟨rest, by simp [operand, hkind], hrest⟩
    | bare words =>
      have free := words.free
      obtain ⟨text, later, hks⟩ := free.1
      obtain ⟨t, rest, rfl, word, -⟩ := kinds_eq_cons (hts.trans hks)
      obtain ⟨last, htake, hlast⟩ := takeBare_bare words hts
      rw [← hts] at free
      rw [operand_free word free, htake]
      exact ⟨last, rfl, hlast⟩
  · rintro ⟨rest, h, rfl⟩
    exact operand_sound h

theorem takeExists?_sound {ts rest : List Token} {negated : Bool}
    (h : takeExists? ts = some (negated, rest)) : Presence (kinds ts) negated (kinds rest) := by
  revert h
  fun_cases takeExists? ts with
  | case1 | case5 | case6 | case7 => nofun
  | case2 t rest word =>
    rintro ⟨⟩
    obtain ⟨text, hkind, spelt⟩ := Token.isWordOf_iff.mp word
    rw [kinds_cons, hkind]
    exact .present spelt _
  | case3 t rest _ word =>
    rintro ⟨⟩
    obtain ⟨text, hkind, spelt⟩ := Token.isWordOf_iff.mp word
    rw [kinds_cons, hkind]
    exact .absent spelt _
  | case4 t _ _ word u rest before =>
    rintro ⟨⟩
    obtain ⟨text, hkind, spelt⟩ := Token.isWordOf_iff.mp word
    obtain ⟨next, hnext, before⟩ := Token.isWordOf_iff.mp before
    rw [kinds_cons, kinds_cons, hkind, hnext]
    exact .notPresent spelt before _

theorem takeExists?_iff {ts : List Token} {negated : Bool} {after : List Kind} :
    Presence (kinds ts) negated after ↔
      ∃ rest, takeExists? ts = some (negated, rest) ∧ kinds rest = after := by
  constructor
  · generalize hts : kinds ts = ks
    intro h
    cases h with
    | present spelt =>
      obtain ⟨t, rest, rfl, hkind, hrest⟩ := kinds_eq_cons hts
      have word : t.isWordOf "exists" = true := Token.isWordOf_iff.mpr ⟨_, hkind, spelt⟩
      exact ⟨rest, by simp [takeExists?, word], hrest⟩
    | absent spelt =>
      obtain ⟨t, rest, rfl, hkind, hrest⟩ := kinds_eq_cons hts
      have word : t.isWordOf "not_exists" = true := Token.isWordOf_iff.mpr ⟨_, hkind, spelt⟩
      have other : t.isWordOf "exists" = false := by simp [Token.isWordOf, hkind, spelt]
      exact ⟨rest, by simp [takeExists?, word, other], hrest⟩
    | notPresent spelt before =>
      obtain ⟨t, rest, rfl, hkind, hrest⟩ := kinds_eq_cons hts
      obtain ⟨u, later, rfl, hnext, hlater⟩ := kinds_eq_cons hrest
      have hlook : takeExists? (t :: u :: later) = some (true, later) := by
        simp [takeExists?, Token.isWordOf, hkind, spelt, hnext, before]
      exact ⟨later, hlook, hlater⟩
  · rintro ⟨rest, h, rfl⟩
    exact takeExists?_sound h

theorem takeComparison?_sound {ts rest : List Token} {op : Comparison}
    (h : takeComparison? ts = some (op, rest)) : op.Spelt (kinds ts) (kinds rest) := by
  revert h
  fun_cases takeComparison? ts with
  | case1 | case5 | case6 | case7 => nofun
  | case2 t rest op hkind =>
    rintro ⟨⟩
    rw [kinds_cons, hkind]
    exact .symbol op _
  | case3 t rest word =>
    rintro ⟨⟩
    rw [kinds_cons, Token.isWord_iff.mp word]
    exact .contains _
  | case4 t _ word u rest before =>
    rintro ⟨⟩
    rw [kinds_cons, kinds_cons, Token.isWord_iff.mp word, Token.isWord_iff.mp before]
    exact .notContains _

theorem takeComparison?_iff {ts : List Token} {op : Comparison} {after : List Kind} :
    op.Spelt (kinds ts) after ↔
      ∃ rest, takeComparison? ts = some (op, rest) ∧ kinds rest = after := by
  constructor
  · generalize hts : kinds ts = ks
    intro h
    cases h with
    | symbol op =>
      obtain ⟨t, rest, rfl, hkind, hrest⟩ := kinds_eq_cons hts
      exact ⟨rest, by simp [takeComparison?, hkind], hrest⟩
    | contains =>
      obtain ⟨t, rest, rfl, hkind, hrest⟩ := kinds_eq_cons hts
      exact ⟨rest, by simp [takeComparison?, Token.isWord, hkind], hrest⟩
    | notContains =>
      obtain ⟨t, rest, rfl, hkind, hrest⟩ := kinds_eq_cons hts
      obtain ⟨u, later, rfl, hnext, hlater⟩ := kinds_eq_cons hrest
      exact ⟨later, by simp [takeComparison?, Token.isWord, hkind, hnext], hlater⟩
  · rintro ⟨rest, h, rfl⟩
    exact takeComparison?_sound h

theorem takeExists?_none {ts : List Token}
    (h : ∀ negated after, ¬ Presence (kinds ts) negated after) : takeExists? ts = none := by
  cases htake : takeExists? ts with
  | none => rfl
  | some taken => exact absurd (takeExists?_sound htake) (h _ _)

theorem takeComparison?_none {ts : List Token}
    (h : ∀ (op : Comparison) after, ¬ op.Spelt (kinds ts) after) : takeComparison? ts = none := by
  cases htake : takeComparison? ts with
  | none => rfl
  | some taken => exact absurd (takeComparison?_sound htake) (h _ _)

theorem predicate_sound {ts rest : List Token} {c : Condition}
    (h : predicate finish ts = .ok (c, rest)) : Predicate (kinds ts) c (kinds rest) := by
  revert h
  fun_cases predicate finish ts with
  | case1 | case3 | case5 => nofun
  | case2 middle negated rest name hexists hleft =>
    rintro ⟨⟩
    have hspelt := operand_sound hleft
    have htest := takeExists?_sound hexists
    generalize kinds ts = ks at hspelt ⊢
    cases hspelt with
    | named => exact .presence htest
  | case4 rest left _ _ hleft =>
    rintro ⟨⟩
    exact .truthy (operand_sound hleft)
  | case6 middle left _ op back hsign right rest hright hleft =>
    rintro ⟨⟩
    exact .compare (operand_sound hleft) (takeComparison?_sound hsign) (operand_sound hright)

theorem predicate_complete (finish : Nat) {ts : List Token} {c : Condition} {after : List Kind}
    (h : Predicate (kinds ts) c after) (ending : Ending after) :
    ∃ rest, predicate finish ts = .ok (c, rest) ∧ kinds rest = after := by
  generalize hts : kinds ts = ks at h
  cases h with
  | presence test =>
    obtain ⟨t, middle, rfl, hkind, rfl⟩ := kinds_eq_cons hts
    obtain ⟨rest, htake, hrest⟩ := takeExists?_iff.mp test
    exact ⟨rest, by simp [predicate, operand, hkind, htake], hrest⟩
  | compare left sign right =>
    rw [← hts] at left
    obtain ⟨middle, hleft, rfl⟩ := (operand_iff finish).mp left
    obtain ⟨back, hsign, rfl⟩ := takeComparison?_iff.mp sign
    obtain ⟨rest, hright, hrest⟩ := (operand_iff finish).mp right
    have hexists := takeExists?_none fun _ _ => not_presence_comparison sign
    exact ⟨rest, by simp [predicate, hleft, hexists, hsign, hright], hrest⟩
  | truthy alone =>
    rw [← hts] at alone
    obtain ⟨rest, hleft, rfl⟩ := (operand_iff finish).mp alone
    have hexists : takeExists? rest = none := takeExists?_none fun _ _ => ending.not_presence
    have hsign : takeComparison? rest = none :=
      takeComparison?_none fun _ _ => ending.not_comparison
    exact ⟨rest, by simp [predicate, hleft, hexists, hsign], rfl⟩

section
variable {spelling : String} {join : Condition → Condition → Condition}
  {item : List Token → Parse Condition}

def chained (spelling : String) (join : Condition → Condition → Condition)
    (item : List Token → Parse Condition) (left : Condition) (ts : List Token) : Parse Condition :=
  chain spelling join item ts.length left ts

def Shrinks (item : List Token → Parse Condition) : Prop :=
  ∀ ts c rest, item ts = .ok (c, rest) → rest.length < ts.length

theorem chain_fuel (shrinks : Shrinks item) {fuel : Nat} {ts : List Token}
    (enough : ts.length ≤ fuel) (left : Condition) :
    chain spelling join item fuel left ts = chained spelling join item left ts := by
  induction fuel using Nat.strongRecOn generalizing ts left with
  | _ fuel ih =>
    cases ts with
    | nil => cases fuel <;> rfl
    | cons t rest =>
      rw [List.length_cons] at enough
      cases fuel with
      | zero => omega
      | succ fuel =>
        rw [chained, List.length_cons, chain, chain]
        split
        · cases hitem : item rest with
          | error e => rfl
          | ok next =>
            have hlength := shrinks rest next.1 next.2 hitem
            have hless := ih fuel (by omega) (by omega : next.2.length ≤ fuel) (join left next.1)
            have hsame := ih rest.length (by omega) (Nat.le_of_lt hlength) (join left next.1)
            exact hless.trans hsame.symm
        · rfl

theorem chained_stop {left : Condition} {ts : List Token}
    (stop : ∀ after, kinds ts ≠ .word spelling :: after) :
    chained spelling join item left ts = .ok (left, ts) := by
  cases ts with
  | nil => rfl
  | cons t rest =>
    have hword : t.isWord spelling = false := by
      rw [← Bool.not_eq_true, Token.isWord_iff]
      exact fun word => stop (kinds rest) (by rw [kinds_cons, word])
    rw [chained, List.length_cons, chain, hword]
    rfl

theorem chained_step (shrinks : Shrinks item) {left right : Condition} {t : Token}
    {rest after : List Token} (word : t.kind = .word spelling)
    (hitem : item rest = .ok (right, after)) :
    chained spelling join item left (t :: rest) =
      chained spelling join item (join left right) after := by
  have hlength := shrinks rest right after hitem
  rw [chained, List.length_cons, chain, if_pos (Token.isWord_iff.mpr word), hitem]
  exact chain_fuel shrinks (Nat.le_of_lt hlength) (join left right)

theorem joined_eq {ts rest : List Token} {left : Condition} (h : item ts = .ok (left, rest)) :
    joined spelling join item ts = chained spelling join item left rest := by
  rw [joined, h]
  rfl

/-- A chain spells what one step of the grammar after the other does. -/
theorem chain_sound {Row Item : List Kind → Condition → List Kind → Prop}
    (step : ∀ {ks back after l r}, Row ks l (.word spelling :: back) → Item back r after →
      Row ks (join l r) after)
    (sound : ∀ {ts c rest}, item ts = .ok (c, rest) → Item (kinds ts) c (kinds rest))
    {ks : List Kind} {fuel : Nat} {left c : Condition} {ts rest : List Token}
    (h : chain spelling join item fuel left ts = .ok (c, rest)) (row : Row ks left (kinds ts)) :
    Row ks c (kinds rest) := by
  induction fuel generalizing left ts with
  | zero =>
    cases h
    exact row
  | succ fuel ih =>
    cases ts with
    | nil =>
      cases h
      exact row
    | cons t later =>
      rw [chain] at h
      split at h
      · next word =>
        split at h
        · cases h
        · next right middle hitem =>
          rw [kinds_cons, Token.isWord_iff.mp word] at row
          exact ih h (step row (sound hitem))
      · cases h
        exact row

theorem joined_sound {Row Item : List Kind → Condition → List Kind → Prop}
    (first : ∀ {ks c after}, Item ks c after → Row ks c after)
    (step : ∀ {ks back after l r}, Row ks l (.word spelling :: back) → Item back r after →
      Row ks (join l r) after)
    (sound : ∀ {ts c rest}, item ts = .ok (c, rest) → Item (kinds ts) c (kinds rest))
    {ts rest : List Token} {c : Condition}
    (h : joined spelling join item ts = .ok (c, rest)) : Row (kinds ts) c (kinds rest) := by
  unfold joined at h
  split at h
  · cases h
  · next left middle hitem => exact chain_sound step sound h (first (sound hitem))

end

theorem factor_sound {inner : List Token → Parse Condition}
    (sound : ∀ {ts c rest}, inner ts = .ok (c, rest) →
      Derives .expression (kinds ts) c (kinds rest))
    {ts rest : List Token} {c : Condition} (h : factor finish inner ts = .ok (c, rest)) :
    Derives .factor (kinds ts) c (kinds rest) := by
  revert h
  fun_cases factor finish inner ts with
  | case1 | case2 | case4 => nofun
  | case3 t later opening condition u rest hinner closing =>
    rintro ⟨⟩
    have hspelt := sound hinner
    rw [kinds_cons, closing] at hspelt
    rw [kinds_cons, opening]
    exact .group hspelt
  | case5 | case6 => exact fun h => .predicate (predicate_sound h)

theorem expression_sound {depth : Nat} {ts rest : List Token} {c : Condition}
    (h : expression finish depth ts = .ok (c, rest)) :
    Derives .expression (kinds ts) c (kinds rest) := by
  induction depth generalizing ts c rest with
  | zero => cases h
  | succ depth ih =>
    exact joined_sound .conjunction .or (joined_sound .factor .and (factor_sound ih)) h

theorem factor_shrinks (finish depth : Nat) : Shrinks (factor finish (expression finish depth)) := by
  intro ts c rest h
  have hlength := (factor_sound expression_sound h).length
  rwa [kinds_length, kinds_length] at hlength

theorem conjunction_sound {depth : Nat} {ts rest : List Token} {c : Condition}
    (h : joined "AND" .and (factor finish (expression finish depth)) ts = .ok (c, rest)) :
    Derives .conjunction (kinds ts) c (kinds rest) :=
  joined_sound .factor .and (factor_sound expression_sound) h

theorem conjunction_shrinks (finish depth : Nat) :
    Shrinks (joined "AND" .and (factor finish (expression finish depth))) := by
  intro ts c rest h
  have hlength := (conjunction_sound h).length
  rwa [kinds_length, kinds_length] at hlength

theorem factor_predicate {inner : List Token → Parse Condition} {ts : List Token} {c : Condition}
    {after : List Kind} (h : Predicate (kinds ts) c after) :
    factor finish inner ts = predicate finish ts := by
  unfold factor
  split
  · next t rest =>
    split
    · next opening =>
      rw [kinds_cons, opening] at h
      exact absurd h Predicate.not_opening
    · rfl
  · rfl

def Reads (finish depth : Nat) : Level → List Token → Condition → List Token → Prop
  | .factor, ts, c, rest => factor finish (expression finish depth) ts = .ok (c, rest)
  | .conjunction, ts, c, rest =>
    joined "AND" .and (factor finish (expression finish depth)) ts =
      chained "AND" .and (factor finish (expression finish depth)) c rest
  | .expression, ts, c, rest =>
    expression finish (depth + 1) ts =
      chained "OR" .or (joined "AND" .and (factor finish (expression finish depth))) c rest

/-- What follows a joining word is no longer than the whole. -/
theorem derives_back_le {level : Level} {ks after : List Kind} {l : Condition} {k : Kind}
    {ts back : List Token} {depth : Nat} (h : Derives level ks l (k :: after))
    (hts : kinds ts = ks) (hback : kinds back = after) (deep : ts.length ≤ depth) :
    back.length ≤ depth := by
  have hlength := h.length
  rw [← hts, ← hback, List.length_cons, kinds_length, kinds_length] at hlength
  omega

/-- Whatever the grammar derives is read, given as much depth as there are tokens. -/
theorem derives_reads (finish : Nat) {level : Level} {ks after : List Kind} {c : Condition}
    (h : Derives level ks c after) {depth : Nat} {ts : List Token} (hts : kinds ts = ks)
    (deep : ts.length ≤ depth) (ending : level.Ending after) :
    ∃ rest, Reads finish depth level ts c rest ∧ kinds rest = after := by
  induction h generalizing depth ts with
  | predicate spelt =>
    rw [← hts] at spelt
    obtain ⟨rest, hpredicate, hrest⟩ := predicate_complete finish spelt ending
    exact ⟨rest, (factor_predicate spelt).trans hpredicate, hrest⟩
  | @group _ _ c inner ih =>
    obtain ⟨t, later, rfl, opening, hlater⟩ := kinds_eq_cons hts
    rw [List.length_cons] at deep
    obtain ⟨depth, rfl⟩ : ∃ d, depth = d + 1 := ⟨depth - 1, by omega⟩
    obtain ⟨last, hread, hlast⟩ := ih hlater (Nat.le_of_succ_le_succ deep) ⟨.closing _, nofun⟩
    obtain ⟨u, rest, rfl, closing, hrest⟩ := kinds_eq_cons hlast
    have hinner : expression finish (depth + 1) later = .ok (c, u :: rest) := by
      refine hread.trans (chained_stop fun after => ?_)
      rw [kinds_cons, closing]
      nofun
    exact ⟨rest, by simp [Reads, factor, opening, hinner, closing], hrest⟩
  | factor only ih =>
    obtain ⟨rest, hread, hrest⟩ := ih hts deep ending
    exact ⟨rest, joined_eq hread, hrest⟩
  | and left right ihLeft ihRight =>
    obtain ⟨middle, hleft, hmiddle⟩ := ihLeft hts deep (.and _)
    obtain ⟨t, back, rfl, word, hback⟩ := kinds_eq_cons hmiddle
    have hshort := derives_back_le left hts hback deep
    obtain ⟨rest, hright, hrest⟩ := ihRight hback hshort ending
    exact ⟨rest, hleft.trans (chained_step (factor_shrinks finish depth) word hright), hrest⟩
  | conjunction only ih =>
    obtain ⟨rest, hread, hrest⟩ := ih hts deep ending.1
    have hstop := hread.trans (chained_stop fun later => hrest ▸ ending.2 later)
    exact ⟨rest, joined_eq hstop, hrest⟩
  | or left right ihLeft ihRight =>
    obtain ⟨middle, hleft, hmiddle⟩ := ihLeft hts deep ⟨.or _, by simp⟩
    obtain ⟨t, back, rfl, word, hback⟩ := kinds_eq_cons hmiddle
    have hshort := derives_back_le left hts hback deep
    obtain ⟨rest, hright, hrest⟩ := ihRight hback hshort ending.1
    have hstop := hright.trans (chained_stop fun later => hrest ▸ ending.2 later)
    exact ⟨rest, hleft.trans (chained_step (conjunction_shrinks finish depth) word hstop), hrest⟩

theorem ofTokens_iff (ts : List Token) (c : Condition) :
    ofTokens ts = .ok c ↔ Sentence (kinds ts) c := by
  cases ts with
  | nil =>
    refine ⟨fun h => ?_, ?_⟩
    · cases h
      exact .inl ⟨rfl, rfl⟩
    · rintro (⟨-, rfl⟩ | h)
      · rfl
      · exact absurd h.length (Nat.not_lt_zero _)
  | cons t rest =>
    unfold ofTokens
    dsimp only
    generalize ((t :: rest).getLast?.map fun t => t.offset + 1).getD 0 = finish
    constructor
    · intro h
      split at h
      · cases h
      · next condition hread =>
        cases h
        exact .inr (expression_sound hread)
      · cases h
    · rintro (⟨none, -⟩ | h)
      · cases none
      · obtain ⟨last, hread, hlast⟩ :=
          derives_reads finish h rfl (Nat.le_refl _) ⟨.nil, nofun⟩
        obtain rfl : last = [] := List.map_eq_nil_iff.mp hlast
        have hexpression : expression finish ((t :: rest).length + 1) (t :: rest) = .ok (c, []) :=
          hread
        rw [hexpression]

end Dialogue.Condition
