import AcrnGuest.CStrings

/-!
# Looking up an environment variable (`lib/string.c`)

`getenv` compares the name with an entry over the length of the entry's key, the part before
its first `=`. The comparison does not look at the character behind this part of the name,
so the first entry whose key is a prefix of the name is taken, the empty key included. The
result is right unless such an entry stands before the one that is meant.
-/

namespace AcrnGuest

/-! ### The source -/

/-- `strchr`; the inner `none` is the null pointer. There is no result if the string does not
end. -/
def strchr (mem : Nat → BitVec 8) (s : Nat) (c : BitVec 8) : Option (Option Nat) :=
  Loop.run (fun s =>
    if mem s ≠ c then
      if mem s = 0#8 then .inr none else .inl (s + 1)
    else .inr (some s)) LOOP_BOUND s

/-- `strncmp`; a `char` is signed. -/
def strncmp (mem : Nat → BitVec 8) (a b : Nat) : Nat → Int
  | 0 => 0
  | n + 1 =>
    if mem a ≠ mem b ∨ mem a = 0#8 then (mem a).toInt - (mem b).toInt
      else strncmp mem (a + 1) (b + 1) n

def EQUALS : BitVec 8 := 61#8

/-- The loop of `getenv` over `environ`; the inner `none` is the null pointer. There is no result if
the array ends without one. -/
def getenv (mem : Nat → BitVec 8) (name : Nat) : List Nat → Option (Option Nat)
  | [] => none
  | envp :: rest =>
      if envp = 0 then some none
      else
        (strchr mem envp EQUALS).bind fun delim =>
          match delim with
          | some delim =>
              if strncmp mem name envp (delim - envp) = 0 then some (some (delim + 1))
                else getenv mem name rest
          | none => getenv mem name rest

/-! ### What a lookup should find -/

def splitEnv : List (BitVec 8) → Option (List (BitVec 8) × List (BitVec 8))
  | [] => none
  | c :: s => if c = EQUALS then some ([], s) else (splitEnv s).map fun kv => (c :: kv.1, kv.2)

abbrev EnvEntry := Nat × List (BitVec 8)

/-- The address of the value of the first entry whose key meets `p`. -/
def lookupEnv (p : List (BitVec 8) → Prop) [DecidablePred p] : List EnvEntry → Option Nat
  | [] => none
  | e :: entries =>
      match splitEnv e.2 with
      | some kv => if p kv.1 then some (e.1 + kv.1.length + 1) else lookupEnv p entries
      | none => lookupEnv p entries

/-- The entry `e` is the first one whose key is a prefix of the name; `after` are the ones behind
it. -/
inductive FirstPrefix (name : List (BitVec 8)) :
    List EnvEntry → EnvEntry → List (BitVec 8) → List EnvEntry → Prop
  | here {e : EnvEntry} {kv : List (BitVec 8) × List (BitVec 8)} {after : List EnvEntry}
      (hsplit : splitEnv e.2 = some kv) (hpre : kv.1 <+: name) :
        FirstPrefix name (e :: after) e kv.1 after
  | there {e e' : EnvEntry} {key : List (BitVec 8)} {rest after : List EnvEntry}
      (hother : ∀ kv, splitEnv e'.2 = some kv → ¬ kv.1 <+: name)
      (hrest : FirstPrefix name rest e key after) :
      FirstPrefix name (e' :: rest) e key after

/-- The environment in memory: the texts of the entries, none of them at the null pointer. -/
structure EnvironAt (mem : Nat → BitVec 8) (entries : List EnvEntry) : Prop where
  text : ∀ e ∈ entries, StringAt mem e.1 e.2
  nonnull : ∀ e ∈ entries, e.1 ≠ 0
  ends : ∀ e ∈ entries, e.2.length < LOOP_BOUND

/-! ### The string functions -/

section Strings

variable {mem : Nat → BitVec 8} {p q bound : Nat} {s name key rest : List (BitVec 8)}

theorem StringAt.head {c : BitVec 8} (h : StringAt mem p (c :: s)) : mem p = c :=
  h.chars 0 (Nat.succ_pos s.length)

theorem StringAt.next {c : BitVec 8} (h : StringAt mem p (c :: s)) : StringAt mem (p + 1) s :=
  h.tail (s := [c])

theorem StringAt.head_ne_zero {c : BitVec 8} (h : StringAt mem p (c :: s)) : c ≠ 0#8 := by
  rintro rfl
  exact h.nonzero (List.mem_cons_self ..)

theorem strchr_eq (h : StringAt mem p s) (hs : s.length < bound) :
    Loop.run (fun s => if mem s ≠ EQUALS then if mem s = 0#8 then .inr none else .inl (s + 1)
      else .inr (some s))
      bound p = some ((splitEnv s).map fun kv => p + kv.1.length) := by
  induction bound generalizing p s with
  | zero => exact absurd hs (Nat.not_lt_zero _)
  | succ bound ih =>
      cases s with
      | nil =>
          have hnul : mem p = 0#8 := h.nul
          rw [Loop.run, hnul]
          rfl
      | cons c s =>
          rw [Loop.run, h.head]
          by_cases hc : c = EQUALS
          · simp [hc, splitEnv]
          · have hne := h.head_ne_zero
            simp only [ne_eq, hc, not_false_eq_true, if_true, hne, if_false, splitEnv]
            rw [ih h.next (Nat.lt_of_succ_lt_succ hs), Option.map_map]
            congr 2
            funext kv
            simp only [Function.comp_apply, List.length_cons]
            omega

theorem splitEnv_append (h : splitEnv s = some (key, rest)) :
    s = key ++ EQUALS :: rest ∧ EQUALS ∉ key := by
  induction s generalizing key with
  | nil => cases h
  | cons c s ih =>
      rw [splitEnv] at h
      split at h
      · next hc =>
          cases h
          exact ⟨by rw [hc]; rfl, List.not_mem_nil⟩
      · next hc =>
          obtain ⟨kv, hkv, heq⟩ := Option.map_eq_some_iff.mp h
          cases heq
          obtain ⟨hs, hnotMem⟩ := ih hkv
          refine ⟨by rw [List.cons_append, ← hs], ?_⟩
          intro hmem
          rcases List.mem_cons.mp hmem with heq | htail
          · exact hc heq.symm
          · exact hnotMem htail

/-- The comparison over the length of a key asks whether the key is a prefix. -/
theorem strncmp_eq_zero_iff (hname : StringAt mem p name) (hkey : StringAt mem q (key ++ rest)) :
    strncmp mem p q key.length = 0 ↔ key <+: name := by
  induction key generalizing p q name with
  | nil => exact iff_of_true rfl List.nil_prefix
  | cons c key ih =>
      have hc : mem q = c := hkey.head
      have hdiffer : mem p ≠ c → (mem p).toInt - (mem q).toInt ≠ 0 := by
        intro hne heq
        apply hne
        rw [← hc]
        exact BitVec.toInt_inj.mp (Int.sub_eq_zero.mp heq)
      rw [List.length_cons, strncmp]
      cases name with
      | nil =>
          have hnul : mem p = 0#8 := hname.nul
          have hne : mem p ≠ c := fun heq => hkey.head_ne_zero (heq.symm.trans hnul)
          rw [if_pos (Or.inr hnul)]
          exact iff_of_false (hdiffer hne) (by simp)
      | cons d name =>
          have hd : mem p = d := hname.head
          by_cases hsame : d = c
          · have hgo : ¬ (mem p ≠ mem q ∨ mem p = 0#8) := by
              rw [hd, hc, hsame]
              have hne : c ≠ 0#8 := hkey.head_ne_zero
              simp [hne]
            rw [if_neg hgo, ih hname.next hkey.next, hsame, List.cons_prefix_cons,
              eq_self_iff_true, true_and]
          · have hne : mem p ≠ c := fun heq => hsame (hd.symm.trans heq)
            rw [if_pos (Or.inl fun heq => hne (heq.trans hc))]
            refine iff_of_false (hdiffer hne) fun hpre => hsame ?_
            exact (List.cons_prefix_cons.mp hpre).1.symm

end Strings

/-! ### What the loop finds -/

section Lookup

variable {mem : Nat → BitVec 8} {p : Nat} {name : List (BitVec 8)} {entries : List EnvEntry}

/-- **`getenv` takes the first entry whose key is a prefix of the name.** -/
theorem getenv_eq (henv : EnvironAt mem entries) (hname : StringAt mem p name) (rest : List Nat) :
    getenv mem p (entries.map Prod.fst ++ 0 :: rest) = some (lookupEnv (· <+: name) entries) := by
  induction entries with
  | nil => rfl
  | cons e entries ih =>
      have htail : EnvironAt mem entries :=
        ⟨fun e' he' => henv.text e' (List.mem_cons_of_mem _ he'),
          fun e' he' => henv.nonnull e' (List.mem_cons_of_mem _ he'),
          fun e' he' => henv.ends e' (List.mem_cons_of_mem _ he')⟩
      have htext := henv.text e (List.mem_cons_self ..)
      have hchr : strchr mem e.1 EQUALS = some ((splitEnv e.2).map fun kv => e.1 + kv.1.length) :=
        strchr_eq htext (henv.ends e (List.mem_cons_self ..))
      rw [List.map_cons, List.cons_append, getenv,
        if_neg (henv.nonnull e (List.mem_cons_self ..)), hchr, Option.bind_some,
        lookupEnv, ih htail]
      cases hsplit : splitEnv e.2 with
      | none => rfl
      | some kv =>
          obtain ⟨key, value⟩ := kv
          obtain ⟨hs, -⟩ := splitEnv_append hsplit
          rw [hs] at htext
          simp only [Option.map_some, Nat.add_sub_cancel_left, strncmp_eq_zero_iff hname htext]
          split <;> rfl

/-- The two lookups agree exactly if no other entry comes before the one with the name as its
key. -/
theorem lookupEnv_prefix_eq_iff :
    lookupEnv (· <+: name) entries = lookupEnv (· = name) entries ↔
      ∀ e key after, FirstPrefix name entries e key after →
        key = name ∨ lookupEnv (· = name) after = some (e.1 + key.length + 1) := by
  induction entries with
  | nil =>
      refine iff_of_true rfl ?_
      rintro e key after ⟨⟩
  | cons e entries ih =>
      -- an entry whose key is no prefix is passed over by both
      have hpass : (∀ kv, splitEnv e.2 = some kv → ¬ kv.1 <+: name) →
          ((∀ e' key after, FirstPrefix name (e :: entries) e' key after →
            key = name ∨ lookupEnv (· = name) after = some (e'.1 + key.length + 1)) ↔
          ∀ e' key after, FirstPrefix name entries e' key after →
            key = name ∨ lookupEnv (· = name) after = some (e'.1 + key.length + 1)) := by
        intro hother
        constructor
        · intro h e' key after hfirst
          exact h e' key after (.there hother hfirst)
        · intro h e' key after hfirst
          cases hfirst with
          | here hsplit hpre => exact absurd hpre (hother _ hsplit)
          | there _ hrest => exact h e' key after hrest
      cases hsplit : splitEnv e.2 with
      | none =>
          rw [hpass (by rw [hsplit]; rintro kv ⟨⟩), ← ih]
          simp only [lookupEnv, hsplit]
      | some kv =>
          by_cases hpre : kv.1 <+: name
          · simp only [lookupEnv, hsplit, if_pos hpre]
            constructor
            · intro heq e' key after hfirst
              cases hfirst with
              | here hsplit' _ =>
                  obtain rfl := Option.some.inj (hsplit.symm.trans hsplit')
                  by_cases hexact : kv.1 = name
                  · exact Or.inl hexact
                  · rw [if_neg hexact] at heq
                    exact Or.inr heq.symm
              | there hother _ => exact absurd hpre (hother _ hsplit)
            · intro h
              rcases h e kv.1 entries (.here hsplit hpre) with hexact | hbehind
              · rw [if_pos hexact]
              · split
                · rfl
                · exact hbehind.symm
          · have hexact : kv.1 ≠ name := fun heq => hpre (heq ▸ List.prefix_refl _)
            have hother : ∀ kv', splitEnv e.2 = some kv' → ¬ kv'.1 <+: name := by
              intro kv' hkv'
              obtain rfl := Option.some.inj (hsplit.symm.trans hkv')
              exact hpre
            rw [hpass hother, ← ih]
            simp only [lookupEnv, hsplit, if_neg hpre, if_neg hexact]

/-- **`getenv` finds the variable** exactly if the first entry whose key is a prefix of the name has
the name as its key, or the value of the entry that is meant happens to be at the same address. -/
theorem getenv_finds_iff (henv : EnvironAt mem entries) (hname : StringAt mem p name)
    (rest : List Nat) :
    getenv mem p (entries.map Prod.fst ++ 0 :: rest) = some (lookupEnv (· = name) entries) ↔
      ∀ e key after, FirstPrefix name entries e key after →
        key = name ∨ lookupEnv (· = name) after = some (e.1 + key.length + 1) := by
  rw [getenv_eq henv hname, Option.some.injEq]
  exact lookupEnv_prefix_eq_iff

/-- The strings `A=1` at 16, `AB=2` at 20 and `AB` at 25. -/
def envText : Nat → BitVec 8 := fun a =>
  [65#8, 61#8, 49#8, 0#8, 65#8, 66#8, 61#8, 50#8, 0#8, 65#8, 66#8, 0#8].getD (a - 16) 0#8

def entryA : EnvEntry := (16, [65#8, 61#8, 49#8])
def entryAB : EnvEntry := (20, [65#8, 66#8, 61#8, 50#8])

theorem environAt_envText : EnvironAt envText [entryA, entryAB] where
  text := by
    have hA : StringAt envText entryA.1 entryA.2 := ⟨by decide, by decide, by decide⟩
    have hAB : StringAt envText entryAB.1 entryAB.2 := ⟨by decide, by decide, by decide⟩
    simp [hA, hAB]
  nonnull := by decide
  ends := by decide

theorem stringAt_envText : StringAt envText 25 [65#8, 66#8] := ⟨by decide, by decide, by decide⟩

theorem getenv_finds_AB :
    getenv envText 25 [20, 16, 0] = some (lookupEnv (· = [65#8, 66#8]) [entryAB, entryA]) := by
  have henv : EnvironAt envText [entryAB, entryA] := by
    obtain ⟨htext, hnonnull, hends⟩ := environAt_envText
    refine ⟨fun e he => htext e ?_, fun e he => hnonnull e ?_, fun e he => hends e ?_⟩ <;>
      exact (List.Perm.swap entryA entryAB []).mem_iff.mp he
  refine (getenv_finds_iff henv stringAt_envText []).mpr ?_
  intro e key after hfirst
  cases hfirst with
  | here hsplit _ =>
      obtain rfl := Option.some.inj hsplit
      exact Or.inl rfl
  | there hother _ => exact absurd (List.prefix_refl _) (hother _ rfl)

/-- **The slip**: `A` is a prefix of `AB`, so that the lookup of `AB` returns the value of `A`
before it. -/
theorem getenv_takes_prefix :
    EnvironAt envText [entryA, entryAB] ∧ StringAt envText 25 [65#8, 66#8] ∧
      lookupEnv (· = [65#8, 66#8]) [entryA, entryAB] = some 23 ∧ StringAt envText 23 [50#8] ∧
      getenv envText 25 [16, 20, 0] = some (some 18) ∧ StringAt envText 18 [49#8] :=
  ⟨environAt_envText, stringAt_envText, by decide, ⟨by decide, by decide, by decide⟩,
    (getenv_eq environAt_envText stringAt_envText []).trans (by decide),
    ⟨by decide, by decide, by decide⟩⟩

end Lookup

end AcrnGuest
