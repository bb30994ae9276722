import StructurePipe.Build.ConfiguredBlocks
import StructurePipe.Lib.LastWrites

/-!
# What an entry owes to the entries before it

The key of an entry says what block it is: its first word is the type and its second the name, or the
type again if there is no second.  A key without any word says nothing.  `load` reads the words of all
keys into one variable, so for such a key it goes by the last word of an earlier one, and if that is
a registered type it makes a block of it.

* `load_map` — what `load` does, in terms of what it takes the entries for;
* `created_takenFor_iff` — **when each entry is taken for what its own key says;**
* `InRange.named_perm` — blocks with different names can be inserted in any order;
* `entries_parsed_apart_iff` — **when entries are read as they stand, in one order and in all.**
-/

namespace StructurePipe.Build

open Tokens LastWrites
open scoped List

namespace BlockLoader

variable {β : Type*} (l : BlockLoader β)

/-! ### What an entry says by itself -/

/-- The block that the words of its own key describe. -/
def ownEntry (entry : YamlNode × YamlNode) : Option BlockEntry :=
  (firstWord isspace entry.1.text).bind fun read =>
    if (l.myBlocksDirectory.lookup read.1).isSome then
      some ⟨read.1, ((firstWord isspace read.2).map Prod.fst).getD read.1, entry.2⟩
    else none

/-- The word that a key leaves in the variable, if it has one: the name of a block, or else its first
word. -/
def leaves (entry : YamlNode × YamlNode) : Option Str :=
  (firstWord isspace entry.1.text).map fun read =>
    ((l.ownEntry entry).map BlockEntry.name).getD read.1

/-- What `load` takes the entries for, one after the other; `temp` is the word that was read last. -/
def takenFor : Str → List (YamlNode × YamlNode) → List (Option BlockEntry)
  | _, [] => []
  | temp, entry :: entries =>
      let read := readWord entry.1.text temp
      if (l.myBlocksDirectory.lookup read.1).isSome then
        let name := if read.2.isEmpty then read.1 else (readWord read.2 read.1).1
        some ⟨read.1, name, entry.2⟩ :: takenFor name entries
      else none :: takenFor read.1 entries

/-- The type, the name and the block that is made of an entry. -/
def created (e : Option BlockEntry) : Option (Str × Str × β) :=
  e.bind fun e => (l.make e).map fun block => (e.type, e.name, block)

def insertCreated (l : BlockLoader β) (c : Str × Str × β) : BlockLoader β := l.insert c.2.1 c.2.2

/-- A place in a list that starts with `x` is the first, or one behind it. -/
theorem forall_split_cons {γ : Type*} {P : List γ → γ → Prop} {x : γ} {xs : List γ} :
    (∀ before e after, x :: xs = before ++ e :: after → P before e) ↔
      P [] x ∧ ∀ before e after, xs = before ++ e :: after → P (x :: before) e := by
  constructor
  · intro h
    exact ⟨h [] x xs rfl, fun before e after heq => h (x :: before) e after (congrArg _ heq)⟩
  · rintro ⟨hfirst, hrest⟩ before e after heq
    cases before with
    | nil =>
        obtain ⟨rfl, -⟩ := List.cons.inj heq
        exact hfirst
    | cons y before =>
        obtain ⟨rfl, hxs⟩ := List.cons.inj heq
        exact hrest before e after hxs

/-- What the creator of a type, if it is one, makes of a node. -/
def takeOver (type : Str) (node : YamlNode) : Option β :=
  (l.myBlocksDirectory.lookup type).bind fun creator => creator node

theorem filterMap_takenFor (temp : Str) (entries : List (YamlNode × YamlNode)) :
    (l.takenFor temp entries).filterMap id = l.blockEntries temp entries := by
  induction entries generalizing temp with
  | nil => rfl
  | cons entry entries ih =>
      rw [takenFor, blockEntries]
      split
      · exact congrArg _ (ih _)
      · exact ih _

/-- The blocks are inserted in the order of their entries. -/
theorem foldl_loadBlock (es : List BlockEntry) (n : ℕ) :
    es.foldl loadBlock (n, l) = (n + (es.filterMap fun e => l.created (some e)).length,
      (es.filterMap fun e => l.created (some e)).foldl insertCreated l) := by
  induction es using List.reverseRecOn with
  | nil => rfl
  | append_singleton es e ih =>
      have hmake : (es.foldl loadBlock (n, l)).2.make e = l.make e :=
        make_congr (directory_foldl (n, l) es) e
      have hcreated : l.created (some e) = (l.make e).map fun block => (e.type, e.name, block) := rfl
      rw [List.foldl_concat, List.filterMap_append, loadBlock, hmake, ih, List.filterMap_cons,
        hcreated]
      cases l.make e with
      | none => simp
      | some block => simp [insertCreated, Nat.add_assoc]

theorem load_map (entries : List (YamlNode × YamlNode)) :
    ((l.load (.map entries)).numLoaded, (l.load (.map entries)).loader)
      = (((l.takenFor [] entries).filterMap l.created).length,
          ((l.takenFor [] entries).filterMap l.created).foldl insertCreated l) := by
  have hcreated : ((l.takenFor [] entries).filterMap l.created)
      = (l.blockEntries [] entries).filterMap fun e => l.created (some e) := by
    rw [← filterMap_takenFor, List.filterMap_filterMap]
    rfl
  have hload := (loadEntries_eq_foldl l [] 0 entries).trans (l.foldl_loadBlock _ 0)
  rw [hcreated, ← Nat.zero_add (List.length _), ← hload]
  rfl

/-! ### Reading the keys -/

theorem ownEntry_of_none {entry : YamlNode × YamlNode} (h : firstWord isspace entry.1.text = none) :
    l.ownEntry entry = none := by
  rw [ownEntry, h]
  rfl

theorem leaves_of_none {entry : YamlNode × YamlNode} (h : firstWord isspace entry.1.text = none) :
    l.leaves entry = none := by
  rw [leaves, h]
  rfl

/-- **A key with a word** is read as it stands. -/
theorem takenFor_of_word {entry : YamlNode × YamlNode} {read : Str × Str}
    (h : firstWord isspace entry.1.text = some read) (temp : Str)
    (entries : List (YamlNode × YamlNode)) :
    l.takenFor temp (entry :: entries)
      = l.ownEntry entry :: l.takenFor ((l.leaves entry).getD temp) entries := by
  have hread : readWord entry.1.text temp = read := by
    rw [readWord, h]
    rfl
  have hname : (if read.2.isEmpty then read.1 else (readWord read.2 read.1).1)
      = ((firstWord isspace read.2).map Prod.fst).getD read.1 := by
    rw [readWord]
    cases hss : read.2 with
    | nil => rfl
    | cons c ss => cases firstWord isspace (c :: ss) <;> rfl
  rw [takenFor, hread, leaves, ownEntry, h]
  simp only [hname, Option.bind_some, Option.map_some, Option.getD_some]
  split <;> rfl

/-- **A key without a word** is taken for the last word before it. -/
theorem takenFor_of_none {entry : YamlNode × YamlNode}
    (h : firstWord isspace entry.1.text = none) (temp : Str)
    (entries : List (YamlNode × YamlNode)) :
    l.takenFor temp (entry :: entries)
      = (if (l.myBlocksDirectory.lookup temp).isSome then some ⟨temp, temp, entry.2⟩ else none)
          :: l.takenFor temp entries := by
  have hread : readWord entry.1.text temp = (temp, []) := by
    rw [readWord, h]
    rfl
  rw [takenFor, hread]
  simp only [List.isEmpty_nil, if_true]
  split <;> rfl

theorem created_takenOver (temp : Str) (node : YamlNode) :
    l.created (if (l.myBlocksDirectory.lookup temp).isSome then some ⟨temp, temp, node⟩ else none)
      = none ↔ l.takeOver temp node = none := by
  rw [created, takeOver]
  cases hlookup : l.myBlocksDirectory.lookup temp with
  | none => simp
  | some creator => simp [make, hlookup]

/-- What `load` creates for an entry, and what it would create for it alone. -/
theorem created_takenFor_iff (temp : Str) (entries : List (YamlNode × YamlNode)) :
    (l.takenFor temp entries).map l.created
        = entries.map (fun entry => l.created (l.ownEntry entry)) ↔
      ∀ before entry after, entries = before ++ entry :: after →
        firstWord isspace entry.1.text = none →
          l.takeOver ((before.filterMap l.leaves).getLast?.getD temp) entry.2 = none := by
  induction entries generalizing temp with
  | nil => simp [takenFor]
  | cons entry entries ih =>
      rw [forall_split_cons]
      cases hword : firstWord isspace entry.1.text with
      | some read =>
          obtain ⟨w, hleaves⟩ : ∃ w, l.leaves entry = some w := by
            rw [leaves, hword]
            exact ⟨_, rfl⟩
          rw [l.takenFor_of_word hword, List.map_cons, List.map_cons, List.cons.injEq, ih, hleaves]
          simp only [List.filterMap_cons, hleaves, List.getLast?_cons, Option.getD_some, true_and,
            reduceCtorEq, false_imp_iff]
      | none =>
          rw [l.takenFor_of_none hword, List.map_cons, List.map_cons, List.cons.injEq, ih,
            l.ownEntry_of_none hword]
          simp only [List.filterMap_cons, l.leaves_of_none hword, List.filterMap_nil,
            List.getLast?_nil, Option.getD_none, true_imp_iff]
          exact and_congr_left fun _ => l.created_takenOver temp entry.2

/-! ### A map whose entries are read as they stand -/

/-- The entries are read as they stand: what is created for each is what its own key and node say,
and that is what `load` inserts and counts. -/
structure ParsedApart (entries : List (YamlNode × YamlNode)) : Prop where
  entrywise : (l.takenFor [] entries).map l.created
    = entries.map fun entry => l.created (l.ownEntry entry)
  loader : (l.load (.map entries)).loader
    = (entries.filterMap fun entry => l.created (l.ownEntry entry)).foldl insertCreated l
  numLoaded : (l.load (.map entries)).numLoaded
    = (entries.filterMap fun entry => l.created (l.ownEntry entry)).length

theorem parsedApart_iff (entries : List (YamlNode × YamlNode)) :
    l.ParsedApart entries ↔ (l.takenFor [] entries).map l.created
      = entries.map fun entry => l.created (l.ownEntry entry) := by
  refine ⟨ParsedApart.entrywise, fun h => ?_⟩
  have hcreated : (l.takenFor [] entries).filterMap l.created
      = entries.filterMap fun entry => l.created (l.ownEntry entry) := by
    have hid := congrArg (List.filterMap id) h
    rwa [List.filterMap_map, List.filterMap_map] at hid
  have hload := l.load_map entries
  rw [hcreated] at hload
  exact ⟨h, congrArg Prod.snd hload, congrArg Prod.fst hload⟩

/-- No key without a word comes after one that left a registered type which makes something of its
node. -/
def TakesNothingOver (entries : List (YamlNode × YamlNode)) : Prop :=
  ∀ before entry after, entries = before ++ entry :: after →
    firstWord isspace entry.1.text = none →
      l.takeOver ((before.filterMap l.leaves).getLast?.getD []) entry.2 = none

/-- The same in any order of the entries. -/
def NeverTakesOver (entries : List (YamlNode × YamlNode)) : Prop :=
  ∀ entry ∈ entries, firstWord isspace entry.1.text = none →
    ∀ type ∈ [] :: entries.filterMap l.leaves, l.takeOver type entry.2 = none

theorem parsedApart_iff_takesNothingOver (entries : List (YamlNode × YamlNode)) :
    l.ParsedApart entries ↔ l.TakesNothingOver entries :=
  (l.parsedApart_iff entries).trans (l.created_takenFor_iff [] entries)

theorem NeverTakesOver.takesNothingOver {l : BlockLoader β} {entries : List (YamlNode × YamlNode)}
    (h : l.NeverTakesOver entries) : l.TakesNothingOver entries := by
  intro before entry after hsplit hword
  refine h entry (by simp [hsplit]) hword _ ?_
  cases hlast : (before.filterMap l.leaves).getLast? with
  | none => exact List.mem_cons_self
  | some w =>
      obtain ⟨e, he, hw⟩ := List.mem_filterMap.mp (List.mem_of_getLast? hlast)
      exact List.mem_cons_of_mem _ (List.mem_filterMap.mpr ⟨e, by simp [hsplit, he], hw⟩)

theorem NeverTakesOver.perm {l : BlockLoader β} {entries entries' : List (YamlNode × YamlNode)}
    (h : l.NeverTakesOver entries) (hperm : entries'.Perm entries) : l.NeverTakesOver entries' := by
  intro entry hmem hword type htype
  refine h entry (hperm.mem_iff.mp hmem) hword type ?_
  exact (((hperm.filterMap l.leaves).cons []).mem_iff).mp htype

/-- If nothing is taken over in any order, nothing can be: the entry that is taken over can come
first, or right after the one it is taken over from. -/
theorem neverTakesOver_of_perms {entries : List (YamlNode × YamlNode)}
    (h : ∀ entries', entries'.Perm entries → l.TakesNothingOver entries') :
    l.NeverTakesOver entries := by
  intro entry hmem hword type htype
  obtain ⟨front, back, rfl⟩ := List.append_of_mem hmem
  have hfirst : (entry :: (front ++ back)).Perm (front ++ entry :: back) := List.perm_middle.symm
  rcases List.mem_cons.mp htype with rfl | htype
  · exact h _ hfirst [] entry (front ++ back) rfl hword
  · obtain ⟨e, he, hleaves⟩ := List.mem_filterMap.mp htype
    have hrest : e ∈ front ++ back := by
      rcases List.mem_cons.mp (hfirst.mem_iff.mpr he) with rfl | hrest
      · exact absurd (hleaves.symm.trans (l.leaves_of_none hword)) (by simp)
      · exact hrest
    obtain ⟨others, others', hothers⟩ := List.append_of_mem hrest
    have horder : (e :: entry :: (others ++ others')).Perm (front ++ entry :: back) := by
      calc (e :: entry :: (others ++ others')).Perm (entry :: e :: (others ++ others')) :=
            List.Perm.swap _ _ _
        _ ~ (entry :: (front ++ back)) := by
            rw [hothers]
            exact List.perm_middle.symm.cons entry
        _ ~ (front ++ entry :: back) := hfirst
    have hnothing := h _ horder [e] entry (others ++ others') rfl hword
    rwa [List.filterMap_cons, hleaves] at hnothing

/-! ### The blocks by their names -/

/-- The block under a name. -/
def named (name : Str) : Option β := (l.get name).bind fun block => l.blocks[block]?

/-- Every name is that of a block that was made. -/
def InRange : Prop := ∀ e ∈ l.myBlocks, e.2 < l.blocks.length

variable {l}

theorem InRange.insert (h : l.InRange) (name : Str) (block : β) : (l.insert name block).InRange := by
  intro e he
  rw [BlockLoader.insert, List.length_append, List.length_singleton]
  rcases List.mem_cons.mp he with rfl | he
  · exact Nat.lt_succ_self _
  · exact Nat.lt_succ_of_lt (h e he)

theorem InRange.named_insert (h : l.InRange) (name : Str) (block : β) (name' : Str) :
    (l.insert name block).named name' = if name' = name then some block else l.named name' := by
  rw [named, get, BlockLoader.insert, List.lookup_cons]
  by_cases hname : name' = name
  · simp [hname]
  · have hbeq : (name' == name) = false := by simpa using hname
    rw [hbeq, if_neg hname, named, get]
    cases hget : l.myBlocks.lookup name' with
    | none => rfl
    | some block' =>
        have hlt := h _ (mem_of_lookup hget)
        exact List.getElem?_append_left hlt

theorem InRange.foldl (h : l.InRange) (cs : List (Str × Str × β)) :
    (cs.foldl insertCreated l).InRange := by
  induction cs generalizing l with
  | nil => exact h
  | cons c cs ih => exact ih (h.insert c.2.1 c.2.2)

/-- The block that was inserted last under a name. -/
theorem InRange.named_foldl (h : l.InRange) (cs : List (Str × Str × β)) (name : Str) :
    (cs.foldl insertCreated l).named name = (last name (cs.map Prod.snd)).or (l.named name) := by
  induction cs using List.reverseRecOn with
  | nil => rfl
  | append_singleton cs c ih =>
      rw [List.foldl_concat, insertCreated, (h.foldl cs).named_insert, ih, List.map_append,
        List.map_singleton, last_append, last_singleton]
      split <;> rfl

theorem InRange.load (h : l.InRange) (node : YamlNode) : (l.load node).loader.InRange := by
  cases node with
  | map entries =>
      have hload := congrArg Prod.snd (l.load_map entries)
      rw [show (l.load (.map entries)).loader = _ from hload]
      exact h.foldl _
  | null => exact h
  | scalar text => exact h
  | sequence items => exact h

/-- A loader with the creators of some types, after it has loaded some nodes. -/
def loadedFrom (types : List (Str × BlockCreator β)) (earlier : List YamlNode) : BlockLoader β :=
  earlier.foldl (fun l node => (l.load node).loader) { myBlocksDirectory := types }

theorem inRange_loadedFrom (types : List (Str × BlockCreator β)) (earlier : List YamlNode) :
    (loadedFrom types earlier).InRange := by
  induction earlier using List.reverseRecOn with
  | nil => exact fun e he => absurd he List.not_mem_nil
  | append_singleton earlier node ih =>
      rw [loadedFrom, List.foldl_concat]
      exact ih.load node

/-- **Blocks with different names can be inserted in any order.** -/
theorem InRange.named_perm (h : l.InRange) {cs cs' : List (Str × Str × β)} (hperm : cs' ~ cs)
    (hnames : (cs.map fun c => c.2.1).Nodup) (name : Str) :
    (cs'.foldl insertCreated l).named name = (cs.foldl insertCreated l).named name := by
  have hnodup : ((cs'.map Prod.snd).map Prod.fst).Nodup := by
    rw [List.map_map]
    exact (hperm.map fun c => c.2.1).nodup_iff.mpr hnames
  rw [h.named_foldl, h.named_foldl, last_perm (hperm.map Prod.snd) hnodup]

variable (l)

/-- In any order the entries are read as they stand; and if the names of what they create are
different, the blocks by their names are the same. -/
def OrderFree (entries : List (YamlNode × YamlNode)) : Prop :=
  ∀ entries', entries' ~ entries → l.ParsedApart entries' ∧
    (((entries.filterMap fun entry => l.created (l.ownEntry entry)).map fun c => c.2.1).Nodup →
      ∀ name, (l.load (.map entries')).loader.named name = (l.load (.map entries)).loader.named name)

variable {l}

theorem InRange.orderFree_iff (h : l.InRange) (entries : List (YamlNode × YamlNode)) :
    l.OrderFree entries ↔ l.NeverTakesOver entries := by
  constructor
  · intro hfree
    exact l.neverTakesOver_of_perms fun entries' hperm =>
      (l.parsedApart_iff_takesNothingOver entries').mp (hfree entries' hperm).1
  · intro hnever entries' hperm
    have hapart := (l.parsedApart_iff_takesNothingOver entries).mpr hnever.takesNothingOver
    have hapart' := (l.parsedApart_iff_takesNothingOver entries').mpr
      (hnever.perm hperm).takesNothingOver
    refine ⟨hapart', fun hnames name => ?_⟩
    rw [hapart.loader, hapart'.loader]
    exact h.named_perm (hperm.filterMap _) hnames name

/-- **When the entries of a map are parsed independently.**  A loader with the creators of any types
has loaded any nodes before.  The entries of a map are read as they stand if and only if no key
without a word follows a key that left a registered type in the variable, with a creator that makes
something of its node.  And they are read as they stand in every order, with the same blocks under
the same names whenever the names are different, if and only if no key without a word could be taken
for any of them. -/
theorem entries_parsed_apart_iff (types : List (Str × BlockCreator β)) (earlier : List YamlNode)
    (entries : List (YamlNode × YamlNode)) :
    ((loadedFrom types earlier).ParsedApart entries ↔
      (loadedFrom types earlier).TakesNothingOver entries) ∧
    ((loadedFrom types earlier).OrderFree entries ↔
      (loadedFrom types earlier).NeverTakesOver entries) :=
  ⟨(loadedFrom types earlier).parsedApart_iff_takesNothingOver entries,
    (inRange_loadedFrom types earlier).orderFree_iff entries⟩

/-- **A null key is taken for the key before it.**  Of the two entries, only the first says that it is
a block; but the second replaces it, unless it comes first. -/
theorem null_key_replaces_block :
    let l : BlockLoader Str :=
      loadedFrom ((registeredTypes true).map fun type => (type, fun node => some node.text)) []
    let block : YamlNode × YamlNode := (.scalar "clone".toList, .scalar ['x'])
    let other : YamlNode × YamlNode := (.null, .scalar ['y'])
    (l.load (.map [block, other])).numLoaded = 2 ∧
      (l.load (.map [block, other])).loader.named "clone".toList = some ['y'] ∧
      (l.load (.map [other, block])).numLoaded = 1 ∧
      (l.load (.map [other, block])).loader.named "clone".toList = some ['x'] ∧
      ¬ l.ParsedApart [block, other] ∧ ¬ l.OrderFree [block, other] := by
  intro l block other
  have htwo : (l.load (.map [block, other])).numLoaded = 2 := by decide
  have hnot : ¬ l.ParsedApart [block, other] := by
    intro h
    have hone := h.numLoaded
    rw [htwo] at hone
    exact absurd hone (by decide)
  exact ⟨htwo, by decide, by decide, by decide, hnot, fun h => hnot (h _ (List.Perm.refl _)).1⟩

end BlockLoader

end StructurePipe.Build
