import Mathlib.Data.Finset.Card
import Mathlib.Data.List.Induction
import StackCode.Interner
import StackCode.Proofs.Plan.Made

/-!
# What an interner answers over time

A fresh interner is called again and again, with strings that are new or not.  After any calls it holds
the strings that it was asked for, each once and in order of first appearance, behind the empty string
(`Interner.known`), and the name of a string is where it stands among them.  As strings are only ever
added behind those that are there, a name that was handed out means the same from then on.

One call adds its string behind what is known unless it is known already, and answers with its name
(`serve_known`); by induction all calls do (`after_and_answers`).  Main statement:
`Interner.answers_lawful`.
-/

namespace StackCode

namespace Interner

/-- A call of an interner. -/
inductive Call where
  | intern (s : String)
  | tryIntern (s : String)

/-- The string that is asked for. -/
def Call.text : Call → String
  | .intern s | .tryIntern s => s

/-- The answer to a call, and the interner after it.  A string that is refused is not added. -/
def serve (t : Interner) : Call → Except InternError Name × Interner
  | .intern s => (.ok (t.intern s).1, (t.intern s).2)
  | .tryIntern s =>
    match t.tryIntern s with
    | .ok (n, t') => (.ok n, t')
    | .error e => (.error e, t)

/-- The interner after some calls. -/
def after (t : Interner) (calls : List Call) : Interner := calls.foldl (fun t c => (t.serve c).2) t

/-- The answers to some calls, one after the other. -/
def answers (t : Interner) : List Call → List (Except InternError Name)
  | [] => []
  | c :: calls => (t.serve c).1 :: (t.serve c).2.answers calls

/-- The strings that calls ask for, each where it appears first, behind the empty string. -/
def known (calls : List Call) : List String := ("" :: calls.map Call.text).eraseDups

/-- The distinct strings that calls ask for, but for the empty one. -/
def asked (calls : List Call) : Finset String := (calls.map Call.text).toFinset.erase ""

variable {t : Interner} {calls : List Call} {c : Call} {s u : String} {n : Name}

theorem after_concat : t.after (calls ++ [c]) = ((t.after calls).serve c).2 := by
  simp [after]

theorem answers_concat :
    t.answers (calls ++ [c]) = t.answers calls ++ [((t.after calls).serve c).1] := by
  induction calls generalizing t with
  | nil => rfl
  | cons d calls ih => exact congrArg ((t.serve d).1 :: ·) ih

/-! ## Strings in order of first appearance -/

theorem eraseDups_concat (texts : List String) (s : String) :
    (texts ++ [s]).eraseDups = if s ∈ texts then texts.eraseDups else texts.eraseDups ++ [s] := by
  rw [List.eraseDups_append]
  by_cases h : s ∈ texts <;> simp [List.removeAll, h, List.eraseDups_cons]

theorem length_eraseDups (texts : List String) : texts.eraseDups.length = texts.toFinset.card := by
  rw [← List.toFinset_card_of_nodup (nodup_eraseDups texts)]
  congr 1
  ext s
  simp

theorem mem_known_iff : s ∈ known calls ↔ s = "" ∨ s ∈ calls.map Call.text := by
  unfold known
  rw [List.mem_eraseDups, List.mem_cons]

theorem mem_known (h : c ∈ calls) : c.text ∈ known calls :=
  mem_known_iff.2 (.inr (List.mem_map_of_mem h))

theorem known_concat : known (calls ++ [c]) =
    if c.text ∈ known calls then known calls else known calls ++ [c.text] := by
  unfold known
  rw [List.map_append, List.map_singleton, ← List.cons_append, eraseDups_concat]
  simp only [List.mem_eraseDups]

/-- What is known stays where it is. -/
theorem known_append (calls more : List Call) : ∃ rest, known (calls ++ more) = known calls ++ rest := by
  unfold known
  rw [List.map_append, ← List.cons_append, List.eraseDups_append]
  exact ⟨_, rfl⟩

theorem length_known (calls : List Call) : (known calls).length = 1 + (asked calls).card := by
  unfold known asked
  rw [length_eraseDups, List.toFinset_cons, ← Finset.card_erase_add_one (Finset.mem_insert_self _ _),
    Finset.erase_insert_eq_erase, Nat.add_comm]

/-- The name of a string that calls ask for. -/
def nameIn (calls : List Call) (s : String) : Name := ⟨(known calls).idxOf s⟩

theorem getElem?_nameIn (h : s ∈ known calls) : (known calls)[(nameIn calls s).index]? = some s := by
  rw [nameIn, List.getElem?_eq_getElem (List.idxOf_lt_length_of_mem h), List.getElem_idxOf]

theorem nameIn_inj (h : s ∈ known calls) (hu : u ∈ known calls) :
    nameIn calls s = nameIn calls u ↔ s = u := by
  refine ⟨fun heq => ?_, fun heq => congrArg _ heq⟩
  have hs := getElem?_nameIn h
  rw [heq, getElem?_nameIn hu] at hs
  exact (Option.some_inj.1 hs).symm

theorem nameIn_empty (calls : List Call) : nameIn calls "" = Name.empty := by
  rw [nameIn, known, List.eraseDups_cons, List.idxOf_cons_self]
  rfl

/-- Every string that is known has its name. -/
theorem nameIn_of_getElem? (h : (known calls)[n.index]? = some s) : n = nameIn calls s := by
  obtain ⟨hlt, rfl⟩ := List.getElem?_eq_some_iff.1 h
  have hnodup : (known calls).Nodup := nodup_eraseDups _
  rw [nameIn, hnodup.idxOf_getElem]

/-- A name stays the name of its string. -/
theorem nameIn_append (h : s ∈ known calls) (more : List Call) :
    nameIn (calls ++ more) s = nameIn calls s := by
  obtain ⟨rest, hrest⟩ := known_append calls more
  rw [nameIn, hrest, List.idxOf_append_of_mem h]
  rfl

theorem nameIn_take {k : Nat} (h : s ∈ known (calls.take k)) :
    nameIn (calls.take k) s = nameIn calls s := by
  rw [← nameIn_append h (calls.drop k), List.take_append_drop]

/-- A string that is asked for the first time gets the next name. -/
theorem nameIn_concat (h : c.text ∉ known calls) :
    nameIn (calls ++ [c]) c.text = ⟨(known calls).length⟩ := by
  rw [nameIn, known_concat, if_neg h, List.idxOf_append_of_notMem h, List.idxOf_cons_self]
  rfl

/-! ## One call -/

theorem indices_of_mem (h : s ∈ t.strings.toList) :
    t.indices[s]? = some (t.strings.toList.idxOf s) := by
  rw [t.indices_iff, ← Array.getElem?_toList,
    List.getElem?_eq_getElem (List.idxOf_lt_length_of_mem h), List.getElem_idxOf]

theorem indices_of_notMem (h : s ∉ t.strings.toList) : t.indices[s]? = none := by
  refine Option.eq_none_iff_forall_ne_some.2 fun i hi => h ?_
  rw [t.indices_iff, ← Array.getElem?_toList] at hi
  exact List.mem_of_getElem? hi

/-- A string that is there keeps its name. -/
theorem intern_of_mem (h : s ∈ t.strings.toList) : t.intern s = (⟨t.strings.toList.idxOf s⟩, t) := by
  have hi := indices_of_mem h
  unfold intern
  split
  · next i hi' =>
    rw [hi] at hi'
    cases hi'
    rfl
  · next hnone => cases hi.symm.trans hnone

/-- A new string is added behind those that are there and gets the next name. -/
theorem intern_of_notMem (h : s ∉ t.strings.toList) :
    (t.intern s).1 = ⟨t.strings.toList.length⟩ ∧
      (t.intern s).2.strings.toList = t.strings.toList ++ [s] := by
  have hnone := indices_of_notMem h
  unfold intern
  split
  · next i hi => cases hnone.symm.trans hi
  · exact ⟨rfl, Array.toList_push⟩

/-- A call is answered if its string is there already or there is room for it. -/
theorem serve_eq (h : c.text ∈ t.strings.toList ∨ t.size < capacity) :
    t.serve c = (.ok (t.intern c.text).1, (t.intern c.text).2) := by
  cases c with
  | intern s => rfl
  | tryIntern s =>
    have hroom : (t.indices.contains s || t.size < capacity) = true := by
      rw [Bool.or_eq_true, decide_eq_true_eq, Std.HashMap.contains_eq_isSome_getElem?]
      exact h.imp_left fun hmem => Option.isSome_of_eq_some (indices_of_mem hmem)
    simp only [serve, tryIntern, hroom, if_true, Call.text]

/-! ## All calls -/

theorem card_texts_le {before : List Call} (h : before.Sublist calls) :
    (before.map Call.text).toFinset.card ≤ (calls.map Call.text).toFinset.card := by
  refine Finset.card_le_card fun s hs => ?_
  rw [List.mem_toFinset] at hs ⊢
  exact (h.map Call.text).mem hs

/-- There is room for a new string as long as there are fewer strings than names. -/
theorem length_known_lt (hc : c.text ∉ known calls)
    (h : ((calls ++ [c]).map Call.text).toFinset.card < capacity) : (known calls).length < capacity := by
  have hnew : c.text ∉ (calls.map Call.text).toFinset := fun hmem =>
    hc (mem_known_iff.2 (.inr (List.mem_toFinset.1 hmem)))
  have htexts : ((calls ++ [c]).map Call.text).toFinset =
      insert c.text (calls.map Call.text).toFinset := by
    ext s
    simp
  have hasked : (asked calls).card ≤ (calls.map Call.text).toFinset.card := Finset.card_erase_le
  rw [htexts, Finset.card_insert_of_notMem hnew] at h
  rw [length_known]
  omega

/-- One call more is answered by the name of its string, which is then known. -/
theorem serve_known (hstrings : t.strings.toList = known calls)
    (h : ((calls ++ [c]).map Call.text).toFinset.card < capacity) :
    (t.serve c).1 = .ok (nameIn (calls ++ [c]) c.text) ∧
      (t.serve c).2.strings.toList = known (calls ++ [c]) := by
  by_cases hc : c.text ∈ known calls
  · have hmem : c.text ∈ t.strings.toList := hstrings ▸ hc
    rw [serve_eq (.inl hmem), intern_of_mem hmem, nameIn_append hc, known_concat, if_pos hc, nameIn,
      ← hstrings]
    exact ⟨rfl, rfl⟩
  · have hroom : t.size < capacity := by
      rw [size, ← Array.length_toList, hstrings]
      exact length_known_lt hc h
    obtain ⟨hname, hadded⟩ := intern_of_notMem (hstrings ▸ hc)
    rw [serve_eq (.inr hroom), nameIn_concat hc, known_concat, if_neg hc, ← hstrings]
    exact ⟨congrArg _ hname, hadded⟩

/-- After calls for fewer strings than there are names, the interner holds what is known, and each call has
been answered by the name of its string. -/
theorem after_and_answers (h : (calls.map Call.text).toFinset.card < capacity) :
    (new.after calls).strings.toList = known calls ∧
      new.answers calls = calls.map fun c => .ok (nameIn calls c.text) := by
  -- on the last call, which finds what the calls before it have left
  induction calls using List.reverseRecOn with
  | nil => exact ⟨rfl, rfl⟩
  | append_singleton calls c ih =>
    have hbefore := card_texts_le (List.sublist_append_left calls [c])
    obtain ⟨hstrings, hanswers⟩ := ih (Nat.lt_of_le_of_lt hbefore h)
    obtain ⟨hname, hadded⟩ := serve_known hstrings h
    refine ⟨after_concat ▸ hadded, ?_⟩
    rw [answers_concat, hanswers, hname, List.map_append, List.map_singleton]
    congr 1
    -- the names of the calls before it are read off a longer list now, in which they stand where they did
    refine List.map_congr_left fun d hd => ?_
    rw [nameIn_append (mem_known hd)]

/-! ## Laws -/

/-- Call `i` asks for a string and is answered by a name. -/
def Gets (calls : List Call) (names : List Name) (i : Nat) (s : String) (n : Name) : Prop :=
  (calls.map Call.text)[i]? = some s ∧ names[i]? = some n

/-- What the names are like that calls get. -/
structure Lawful (calls : List Call) (names : List Name) : Prop where
  length_eq : names.length = calls.length
  /-- Two calls get one name exactly if they ask for one string. -/
  eq_iff : ∀ i j s u n m, Gets calls names i s n → Gets calls names j u m → (n = m ↔ s = u)
  empty : ∀ i n, Gets calls names i "" n → n = Name.empty
  /-- A string that is asked for the first time gets the next name. -/
  first : ∀ i s n, Gets calls names i s n → s ≠ "" → s ∉ (calls.take i).map Call.text →
    n = ⟨(asked (calls.take i)).card + 1⟩
  /-- A name has its string from the call on. -/
  lookup_eq : ∀ i s n, Gets calls names i s n → ∀ k, i < k → (new.after (calls.take k)).lookup n = s
  /-- No call changes the string of a name that there is. -/
  lookup_stable : ∀ k l n, k ≤ l → n.index < (new.after (calls.take k)).size →
    (new.after (calls.take l)).lookup n = (new.after (calls.take k)).lookup n
  size_eq : ∀ k, (new.after (calls.take k)).size = (asked (calls.take k)).card + 1
  /-- A name that has not been handed out has no string. -/
  lookup_other : ∀ k n, n ∉ names.take k → (new.after (calls.take k)).lookup n = ""

theorem lookup_after (h : (calls.map Call.text).toFinset.card < capacity) (n : Name) :
    (new.after calls).lookup n = (known calls)[n.index]?.getD "" := by
  rw [lookup, ← Array.getElem?_toList, (after_and_answers h).1]

theorem size_after (h : (calls.map Call.text).toFinset.card < capacity) :
    (new.after calls).size = (known calls).length := by
  rw [size, ← Array.length_toList, (after_and_answers h).1]

/-- Further calls add strings behind those that there are. -/
theorem lookup_after_append {more : List Call}
    (h : ((calls ++ more).map Call.text).toFinset.card < capacity)
    (hn : n.index < (new.after calls).size) :
    (new.after (calls ++ more)).lookup n = (new.after calls).lookup n := by
  have hbefore := Nat.lt_of_le_of_lt (card_texts_le (List.sublist_append_left calls more)) h
  obtain ⟨rest, hrest⟩ := known_append calls more
  rw [size_after hbefore] at hn
  rw [lookup_after h, lookup_after hbefore, hrest, List.getElem?_append_left hn]

/-- Every string but the empty one has been asked for, so that its name has been handed out. -/
theorem lookup_after_of_notMem (h : (calls.map Call.text).toFinset.card < capacity)
    (hn : ∀ c ∈ calls, n ≠ nameIn calls c.text) : (new.after calls).lookup n = "" := by
  rw [lookup_after h]
  cases hs : (known calls)[n.index]? with
  | none => rfl
  | some s =>
    rcases mem_known_iff.1 (List.mem_of_getElem? hs) with rfl | htext
    · rfl
    · obtain ⟨c, hc, rfl⟩ := List.mem_map.1 htext
      exact absurd (nameIn_of_getElem? hs) (hn c hc)

/-- A call gets the name of its string, and the string is known from then on. -/
theorem Gets.nameIn {i : Nat} (h : Gets calls (calls.map fun c => nameIn calls c.text) i s n) :
    n = nameIn calls s ∧ s ∈ known calls ∧ ∀ k, i < k → s ∈ known (calls.take k) := by
  obtain ⟨hs, hn⟩ := h
  rw [List.getElem?_map] at hs hn
  obtain ⟨c, hc, rfl⟩ := Option.map_eq_some_iff.1 hs
  rw [hc] at hn
  refine ⟨(Option.some_inj.1 hn).symm, mem_known (List.mem_of_getElem? hc), fun k hik => mem_known ?_⟩
  exact List.mem_of_getElem? (by rwa [List.getElem?_take_of_lt hik])

/-- Calls for fewer strings than there are names are all answered, and lawfully. -/
theorem answers_lawful (calls : List Call) (h : (calls.map Call.text).toFinset.card < capacity) :
    ∃ names : List Name, new.answers calls = names.map .ok ∧ Lawful calls names := by
  have htake (k : Nat) : ((calls.take k).map Call.text).toFinset.card < capacity :=
    Nat.lt_of_le_of_lt (card_texts_le (List.take_sublist k calls)) h
  refine ⟨calls.map fun c => nameIn calls c.text, ?_, List.length_map _, ?_, ?_, ?_, ?_, ?_, ?_, ?_⟩
  · rw [(after_and_answers h).2, List.map_map]
    rfl
  · intro i j s u n m hn hm
    rw [hn.nameIn.1, hm.nameIn.1, nameIn_inj hn.nameIn.2.1 hm.nameIn.2.1]
  · intro i n hn
    rw [hn.nameIn.1, nameIn_empty]
  · intro i s n hn hne hnew
    obtain ⟨hname, -, hknown⟩ := hn.nameIn
    obtain ⟨hs, -⟩ := hn
    rw [List.getElem?_map] at hs
    obtain ⟨c, hc, rfl⟩ := Option.map_eq_some_iff.1 hs
    have hunknown : c.text ∉ known (calls.take i) := fun hmem => (mem_known_iff.1 hmem).elim hne hnew
    rw [hname, ← nameIn_take (hknown (i + 1) (Nat.lt_succ_self i)), List.take_add_one, hc,
      Option.toList_some, nameIn_concat hunknown, length_known, Nat.add_comm]
  · intro i s n hn k hik
    obtain ⟨hname, -, hknown⟩ := hn.nameIn
    rw [lookup_after (htake k), hname, ← nameIn_take (hknown k hik), getElem?_nameIn (hknown k hik)]
    rfl
  · intro k l n hkl hn
    obtain ⟨more, hmore⟩ : ∃ more, calls.take l = calls.take k ++ more :=
      ⟨(calls.take l).drop k, by rw [List.drop_take, ← List.take_add, Nat.add_sub_cancel' hkl]⟩
    have hlater := htake l
    rw [hmore] at hlater ⊢
    exact lookup_after_append hlater hn
  · intro k
    rw [size_after (htake k), length_known, Nat.add_comm]
  · intro k n hn
    refine lookup_after_of_notMem (htake k) fun c hc heq => hn ?_
    rw [heq, nameIn_take (mem_known hc), ← List.map_take]
    exact List.mem_map_of_mem hc

/-- Two strings and the empty one, of which one is asked for again. -/
def revisited : List Call := [.intern "b", .tryIntern "", .intern "a", .tryIntern "b"]

/-- The string that is asked for again gets its name again, and the other one the name behind it. -/
theorem revisited_lawful : ∃ n m, new.answers revisited = [.ok n, .ok Name.empty, .ok m, .ok n] ∧
    m = ⟨2⟩ ∧ n ≠ m ∧ (new.after (revisited.take 3)).lookup n = "b" ∧
    (new.after (revisited.take 1)).lookup m = "" ∧ (new.after (revisited.take 4)).size = 3 := by
  obtain ⟨names, hanswers, hlaws⟩ := answers_lawful revisited (by decide)
  match names, hlaws.length_eq with
  | [n, e, m, n'], _ =>
    obtain rfl : e = Name.empty := hlaws.empty 1 e ⟨rfl, rfl⟩
    obtain rfl : n = n' := (hlaws.eq_iff 0 3 "b" "b" n n' ⟨rfl, rfl⟩ ⟨rfl, rfl⟩).2 rfl
    have hne : n ≠ m := (hlaws.eq_iff 0 2 "b" "a" n m ⟨rfl, rfl⟩ ⟨rfl, rfl⟩).not.2 (by decide)
    have hm : m = ⟨2⟩ := hlaws.first 2 "a" m ⟨rfl, rfl⟩ (by decide) (by decide)
    have hlookup := hlaws.lookup_eq 0 "b" n ⟨rfl, rfl⟩ 3 (by decide)
    have hother := hlaws.lookup_other 1 m (by simpa using hne.symm)
    exact ⟨n, m, hanswers, hm, hne, hlookup, hother, hlaws.size_eq 4⟩

end Interner

end StackCode
