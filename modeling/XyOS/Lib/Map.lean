import XyOS.Foundation.Runs
import XyOS.Lib.ListDefs

/-! The maps of `map.h`. A map is a ring of `list.h` through the members `node` of its
entries, and only the links are ever written. -/

namespace XyOS.Map
open Linked Runs

/-- The links are keyed by the address of the node, the other members by the address of
the `MapEntry`. -/
structure Heap where
  next : ℕ → ℕ
  key : ℕ → UInt8
  value : ℕ → ℕ

def nodeOf (entry : ℕ) : ℕ := u32 (entry + 8)

def entryOf (ptr : ℕ) : ℕ := sub32 ptr 8

def mapAdd (h : Heap) (map entry : ℕ) : Heap := { h with next := listAdd h.next map (nodeOf entry) }

/-- The `while` of both lookups, cut off after `fuel` rounds: the node before the entry with
the key, `none` at the end of the list. No round changes `node`. -/
def mapFind (h : Heap) (map : ℕ) (key : UInt8) : ℕ → ℕ → Except Fault (Option ℕ)
  | 0, _ => .error .diverges
  | fuel + 1, node =>
    if h.next node = map then .ok none
    else if h.key (entryOf (h.next node)) = key then .ok (some node)
    else mapFind h map key fuel node

def unlink (h : Heap) (node : ℕ) : ℕ × Heap :=
  (entryOf (listRemove h.next node).1, { h with next := (listRemove h.next node).2 })

def mapGet (fuel : ℕ) (h : Heap) (map : ℕ) (key : UInt8) : Except Fault (ℕ × Heap) := do
  match ← mapFind h map key fuel map with
  | none => .ok (0, h)
  | some node =>
    let (entry, h) := unlink h node
    .ok (h.value entry, h)

def mapRemove (fuel : ℕ) (h : Heap) (map : ℕ) (key : UInt8) : Except Fault (ℕ × Heap) := do
  match ← mapFind h map key fuel map with
  | none => .ok (0, h)
  | some node => .ok (unlink h node)

def entries (h : Heap) (map : ℕ) : List ℕ := (listNodes h.next map).map entryOf

structure IsMap (h : Heap) (map : ℕ) (es : List ℕ) : Prop where
  ring : Seg h.next map (es.map nodeOf) map
  nodup : (map :: es.map nodeOf).Nodup
  fits : ∀ e ∈ es, e + 8 < 2 ^ 32

variable {h h' : Heap} {map e : ℕ} {es : List ℕ} {key : UInt8} {fuel : ℕ}

theorem entryOf_nodeOf (he : e + 8 < 2 ^ 32) : entryOf (nodeOf e) = e := by
  rw [nodeOf, u32_of_lt he, entryOf, sub32_of_le (by omega) he, Nat.add_sub_cancel]

theorem map_entryOf_nodeOf (hes : ∀ e ∈ es, e + 8 < 2 ^ 32) : (es.map nodeOf).map entryOf = es := by
  rw [List.map_map, List.map_congr_left (g := id), List.map_id]
  intro e he
  rw [Function.comp_apply, entryOf_nodeOf (hes e he), id_eq]

theorem IsMap.entries (hm : IsMap h map es) : entries h map = es := by
  obtain ⟨hmap, hnd⟩ := List.nodup_cons.mp hm.nodup
  have hlt : ∀ x ∈ es.map nodeOf, x < 2 ^ 32 := by
    intro x hx
    obtain ⟨e, -, rfl⟩ := List.mem_map.mp hx
    exact Nat.mod_lt _ (by decide)
  have hlen : (es.map nodeOf).length ≤ loopFuel := by
    rw [loopFuel]
    cases hes : es.map nodeOf with
    | nil => exact Nat.zero_le _
    | cons x xs =>
      rw [hes] at hnd hlt
      exact length_lt_of_nodup hnd hlt
  rw [Map.entries, listNodes, collect_seg hm.ring hmap hlen, map_entryOf_nodeOf hm.fits]

theorem mapFind_nil (hm : IsMap h map []) : mapFind h map key (fuel + 1) map = .ok none :=
  if_pos hm.ring

theorem IsMap.first (hm : IsMap h map (e :: es)) : h.next map = nodeOf e ∧ nodeOf e ≠ map ∧
    entryOf (h.next map) = e := by
  have hnext : h.next map = nodeOf e := hm.ring.1
  refine ⟨hnext, fun he => ?_, ?_⟩
  · exact (List.nodup_cons.mp hm.nodup).1 (he ▸ List.mem_cons_self)
  · rw [hnext, entryOf_nodeOf (hm.fits e List.mem_cons_self)]

theorem mapFind_hit (hm : IsMap h map (e :: es)) (hkey : h.key e = key) :
    mapFind h map key (fuel + 1) map = .ok (some map) := by
  obtain ⟨hnext, hne, hentry⟩ := hm.first
  rw [mapFind, if_neg (hnext ▸ hne), hentry, if_pos hkey]

theorem mapFind_miss (hm : IsMap h map (e :: es)) (hkey : h.key e ≠ key) (fuel : ℕ) :
    mapFind h map key fuel map = .error .diverges := by
  obtain ⟨hnext, hne, hentry⟩ := hm.first
  induction fuel with
  | zero => rfl
  | succ fuel ih => rw [mapFind, if_neg (hnext ▸ hne), hentry, if_neg hkey, ih]

theorem ends_iff {α β : Type} {x : ℕ → Except Fault α} {f : α → Except Fault β} (hf : ∀ a, ∃ b, f a = .ok b) :
    (∃ fuel b, (x fuel >>= f) = .ok b) ↔ ∃ fuel a, x fuel = .ok a := by
  constructor
  · rintro ⟨fuel, b, hb⟩
    obtain ⟨a, ha, -⟩ := of_bind_ok hb
    exact ⟨fuel, a, ha⟩
  · rintro ⟨fuel, a, ha⟩
    obtain ⟨b, hb⟩ := hf a
    exact ⟨fuel, b, (bind_ok ha f).trans hb⟩

theorem mapFind_ends_iff (hm : IsMap h map es) :
    (∃ fuel r, mapFind h map key fuel map = .ok r) ↔ ∀ e ∈ es.head?, h.key e = key := by
  cases es with
  | nil => exact iff_of_true ⟨1, none, mapFind_nil hm⟩ fun e he => nomatch he
  | cons e es =>
    constructor
    · rintro ⟨fuel, r, hr⟩ e' he'
      obtain rfl := Option.some.inj he'
      by_contra hkey
      rw [mapFind_miss hm hkey] at hr
      exact nomatch hr
    · exact fun hkey => ⟨1, some map, mapFind_hit hm (hkey e rfl)⟩

theorem map_lookups_end_iff (hm : IsMap h map es) (key : UInt8) :
    ((∃ fuel r, mapGet fuel h map key = .ok r) ∧ ∃ fuel r, mapRemove fuel h map key = .ok r) ↔
      ∀ e ∈ es.head?, h.key e = key := by
  rw [← mapFind_ends_iff hm]
  unfold mapGet mapRemove
  rw [ends_iff, ends_iff, and_self]
  · rintro (_ | node)
    · exact ⟨_, rfl⟩
    · exact ⟨_, rfl⟩
  · rintro (_ | node)
    · exact ⟨_, rfl⟩
    · exact ⟨_, rfl⟩

def oneEntry : Heap := ⟨fun p => if p = 0x100 then 24 else 0x100, fun _ => 1, fun _ => 7⟩

theorem isMap_oneEntry : IsMap oneEntry 0x100 [16] := ⟨⟨rfl, rfl⟩, by decide, by decide⟩

theorem map_lookups_end_iff_oneEntry : (∃ fuel r, mapGet fuel oneEntry 0x100 1 = .ok r) ∧
    ∃ fuel r, mapRemove fuel oneEntry 0x100 1 = .ok r :=
  (map_lookups_end_iff isMap_oneEntry 1).mpr fun _ _ => rfl

theorem map_lookup_diverges : IsMap oneEntry 0x100 [16] ∧ ¬ ∃ fuel r, mapGet fuel oneEntry 0x100 2 = .ok r := by
  refine ⟨isMap_oneEntry, ?_⟩
  rintro ⟨fuel, r, hr⟩
  obtain ⟨a, ha, -⟩ := of_bind_ok hr
  rw [mapFind_miss isMap_oneEntry (by decide)] at ha
  exact nomatch ha

/-! ## Runs of calls -/

inductive Op
  | add (entry : ℕ)
  | get (key : UInt8)
  | remove (key : UInt8)

def exec (map : ℕ) (h : Heap) : Op → Except Fault Heap
  | .add entry => .ok (mapAdd h map entry)
  | .get key => do
    let (_, h) ← mapGet loopFuel h map key
    .ok h
  | .remove key => do
    let (_, h) ← mapRemove loopFuel h map key
    .ok h

/-- The caller adds an entry that is not in the map, under a key that is not in use. -/
def Legal (map : ℕ) (h : Heap) : Op → Prop
  | .add entry => entry + 8 < 2 ^ 32 ∧ nodeOf entry ≠ map ∧ entry ∉ entries h map ∧
      ∀ e ∈ entries h map, h.key e ≠ h.key entry
  | _ => True

def Dictionary (map : ℕ) (h : Heap) : Op → Prop
  | .add entry => entries (mapAdd h map entry) map = entry :: entries h map
  | .get key => ∀ v h', mapGet loopFuel h map key = .ok (v, h') →
      v = ((entries h map).find? (h.key · == key)).elim 0 h.value ∧ entries h' map = entries h map ∧
        ∀ v' h'', mapGet loopFuel h' map key = .ok (v', h'') → v' = v
  | .remove key => ∀ e h', mapRemove loopFuel h map key = .ok (e, h') →
      e = ((entries h map).find? (h.key · == key)).getD 0 ∧
        entries h' map = (entries h map).filter (h.key · != key)

def FirstKept (map : ℕ) (h : Heap) : Op → Prop
  | .get key => ∀ e ∈ (entries h map).head?, h.key e ≠ key
  | _ => True

structure IsDict (h : Heap) (map : ℕ) (es : List ℕ) : Prop extends IsMap h map es where
  keys : (es.map h.key).Nodup

theorem unlink_entry (hm : IsMap h map (e :: es)) : (unlink h map).1 = e := hm.first.2.2

theorem IsDict.unlink (hm : IsDict h map (e :: es)) : IsDict (unlink h map).2 map es where
  ring := by
    have hring : Seg h.next map ([] ++ nodeOf e :: es.map nodeOf) map := hm.ring
    exact hring.erase hm.nodup
  nodup := by
    obtain ⟨hmap, hnd⟩ := List.nodup_cons.mp hm.nodup
    exact List.nodup_cons.mpr ⟨fun hx => hmap (List.mem_cons_of_mem _ hx), (List.nodup_cons.mp hnd).2⟩
  fits := fun e he => hm.fits e (List.mem_cons_of_mem _ he)
  keys := (List.nodup_cons.mp hm.keys).2

theorem IsDict.mapAdd (hm : IsDict h map es) (hl : Legal map h (.add e)) : IsDict (mapAdd h map e) map (e :: es) := by
  obtain ⟨hfits, hmap, he, hkey⟩ := hl
  rw [hm.entries] at he hkey
  have hnode : nodeOf e ∉ es.map nodeOf := by
    intro hx
    obtain ⟨e', he', heq⟩ := List.mem_map.mp hx
    rw [← entryOf_nodeOf hfits, ← heq, entryOf_nodeOf (hm.fits e' he')] at he
    exact he he'
  have hnew : nodeOf e ∉ map :: es.map nodeOf := by
    rw [List.mem_cons, not_or]
    exact ⟨hmap, hnode⟩
  refine ⟨⟨?_, ?_, ?_⟩, ?_⟩
  · have hring : Seg h.next map ([] ++ es.map nodeOf) map := hm.ring
    exact hring.insert hm.nodup hnew
  · obtain ⟨hmap', hnd⟩ := List.nodup_cons.mp hm.nodup
    rw [List.map_cons, List.nodup_cons, List.nodup_cons, List.mem_cons, not_or]
    exact ⟨⟨Ne.symm hmap, hmap'⟩, hnode, hnd⟩
  · exact List.forall_mem_cons.mpr ⟨hfits, hm.fits⟩
  · refine List.nodup_cons.mpr ⟨fun hx => ?_, hm.keys⟩
    obtain ⟨e', he', heq⟩ := List.mem_map.mp hx
    exact hkey e' he' heq

theorem mapFind_ok {r : Option ℕ} (hm : IsMap h map es) (hr : mapFind h map key fuel map = .ok r) :
    (es = [] ∧ r = none) ∨ ∃ e es', es = e :: es' ∧ h.key e = key ∧ r = some map := by
  obtain ⟨n, rfl⟩ : ∃ n, fuel = n + 1 := by
    cases fuel with
    | zero => exact nomatch hr
    | succ n => exact ⟨n, rfl⟩
  cases es with
  | nil => exact .inl ⟨rfl, Except.ok.inj (hr.symm.trans (mapFind_nil hm))⟩
  | cons e es =>
    by_cases hkey : h.key e = key
    · exact .inr ⟨e, es, rfl, hkey, Except.ok.inj (hr.symm.trans (mapFind_hit hm hkey))⟩
    · rw [mapFind_miss hm hkey] at hr
      exact nomatch hr

theorem mapGet_ok {v : ℕ} (hm : IsMap h map es) (hget : mapGet fuel h map key = .ok (v, h')) :
    (es = [] ∧ v = 0 ∧ h' = h) ∨
      ∃ e es', es = e :: es' ∧ h.key e = key ∧ v = h.value e ∧ h' = (unlink h map).2 := by
  obtain ⟨r, hfind, hret⟩ := of_bind_ok hget
  obtain ⟨rfl, rfl⟩ | ⟨e, es', rfl, hkey, rfl⟩ := mapFind_ok hm hfind
  · cases hret
    exact .inl ⟨rfl, rfl, rfl⟩
  · cases hret
    exact .inr ⟨e, es', rfl, hkey, congrArg h.value (unlink_entry hm), rfl⟩

theorem mapRemove_ok (hm : IsMap h map es) (hrem : mapRemove fuel h map key = .ok (e, h')) :
    (es = [] ∧ e = 0 ∧ h' = h) ∨ ∃ es', es = e :: es' ∧ h.key e = key ∧ h' = (unlink h map).2 := by
  obtain ⟨r, hfind, hret⟩ := of_bind_ok hrem
  obtain ⟨rfl, rfl⟩ | ⟨e', es', rfl, hkey, rfl⟩ := mapFind_ok hm hfind
  · cases hret
    exact .inl ⟨rfl, rfl, rfl⟩
  · have hunlink : unlink h map = (e, h') := Except.ok.inj hret
    obtain rfl : e' = e := by rw [← unlink_entry hm, hunlink]
    exact .inr ⟨es', rfl, hkey, by rw [hunlink]⟩

theorem mapGet_hit (hm : IsMap h map (e :: es)) (hkey : h.key e = key) :
    mapGet loopFuel h map key = .ok (h.value e, (unlink h map).2) := by
  obtain ⟨n, hn⟩ : ∃ n, loopFuel = n + 1 := ⟨2 ^ 32 - 1, by rw [loopFuel, Nat.sub_add_cancel (by decide)]⟩
  rw [mapGet, hn, mapFind_hit hm hkey, ← unlink_entry hm]
  rfl

theorem exec_isDict {op : Op} (hm : IsDict h map es) (hl : Legal map h op) (hexec : exec map h op = .ok h') :
    ∃ es', IsDict h' map es' := by
  cases op with
  | add entry =>
    obtain rfl := Except.ok.inj hexec
    exact ⟨_, hm.mapAdd hl⟩
  | get key =>
    obtain ⟨⟨v, h₁⟩, hget, hret⟩ := of_bind_ok hexec
    obtain rfl := Except.ok.inj hret
    obtain ⟨rfl, -, rfl⟩ | ⟨e, es', rfl, -, -, rfl⟩ := mapGet_ok hm.toIsMap hget
    · exact ⟨_, hm⟩
    · exact ⟨_, hm.unlink⟩
  | remove key =>
    obtain ⟨⟨e, h₁⟩, hrem, hret⟩ := of_bind_ok hexec
    obtain rfl := Except.ok.inj hret
    obtain ⟨rfl, -, rfl⟩ | ⟨es', rfl, -, rfl⟩ := mapRemove_ok hm.toIsMap hrem
    · exact ⟨_, hm⟩
    · exact ⟨_, hm.unlink⟩

theorem dictionary_get_nil (hm : IsDict h map []) (key : UInt8) : Dictionary map h (.get key) := by
  intro v h' hget
  obtain ⟨-, rfl, rfl⟩ | ⟨e, es', hes, -⟩ := mapGet_ok hm.toIsMap hget
  · refine ⟨by rw [hm.entries]; rfl, rfl, fun v' h'' hget' => ?_⟩
    exact (Prod.ext_iff.mp (Except.ok.inj (hget'.symm.trans hget))).1
  · exact nomatch hes

theorem not_dictionary_get_hit (hm : IsDict h map (e :: es)) : ¬ Dictionary map h (.get (h.key e)) := by
  intro hd
  obtain ⟨-, hes, -⟩ := hd _ _ (mapGet_hit hm.toIsMap rfl)
  rw [hm.entries, hm.unlink.entries] at hes
  exact List.cons_ne_self e es hes.symm

theorem dictionary_remove (hm : IsDict h map es) (key : UInt8) : Dictionary map h (.remove key) := by
  intro e h' hrem
  obtain ⟨rfl, rfl, rfl⟩ | ⟨es', rfl, rfl, rfl⟩ := mapRemove_ok hm.toIsMap hrem
  · rw [hm.entries]
    exact ⟨rfl, rfl⟩
  · obtain ⟨hnot, -⟩ := List.nodup_cons.mp hm.keys
    rw [hm.entries, hm.unlink.entries, List.find?_cons_of_pos (by simp), List.filter_cons_of_neg (by simp)]
    refine ⟨rfl, (List.filter_eq_self.mpr fun e' he' => ?_).symm⟩
    rw [bne_iff_ne]
    exact fun hkey => hnot (List.mem_map.mpr ⟨e', he', hkey⟩)

theorem dictionary_iff_firstKept {op : Op} (hm : IsDict h map es) (hl : Legal map h op) :
    Dictionary map h op ↔ FirstKept map h op := by
  cases op with
  | add entry =>
    refine iff_of_true ?_ trivial
    rw [Dictionary, hm.entries, (hm.mapAdd hl).entries]
  | remove key => exact iff_of_true (dictionary_remove hm key) trivial
  | get key =>
    rw [FirstKept, hm.entries]
    cases es with
    | nil => exact iff_of_true (dictionary_get_nil hm key) fun e he => nomatch he
    | cons e es =>
      constructor
      · rintro hd e' he' rfl
        obtain rfl := Option.some.inj he'
        exact not_dictionary_get_hit hm hd
      · intro hkey v h' hget
        -- a lookup that misses the first entry does not return
        obtain ⟨hes, -⟩ | ⟨e', es', hes, hkey', -⟩ := mapGet_ok hm.toIsMap hget
        · exact nomatch hes
        · obtain ⟨rfl, -⟩ := List.cons.inj hes
          exact absurd hkey' (hkey e rfl)

theorem dictionary_iff {ops : List Op} (hm : IsDict h map es) (hl : Along (exec map) (Legal map) h ops) :
    Along (exec map) (Dictionary map) h ops ↔ Along (exec map) (FirstKept map) h ops := by
  have hiff : Along (exec map) (fun h op => Legal map h op ∧ Dictionary map h op) h ops ↔
      Along (exec map) (fun h op => Legal map h op ∧ FirstKept map h op) h ops := by
    refine along_iff (I := fun h => ∃ es, IsDict h map es) ?_ ?_ ⟨es, hm⟩
    · rintro h op h' ⟨es, hm⟩ ⟨hl, -⟩ hexec
      exact exec_isDict hm hl hexec
    · rintro h op ⟨es, hm⟩
      exact and_congr_right fun hl => dictionary_iff_firstKept hm hl
  rw [along_and, along_and] at hiff
  exact ⟨fun hd => (hiff.mp ⟨hl, hd⟩).2, fun hk => (hiff.mpr ⟨hl, hk⟩).2⟩

theorem isDict_oneEntry : IsDict oneEntry 0x100 [16] := ⟨isMap_oneEntry, List.nodup_singleton _⟩

theorem dictionary_iff_oneEntry : Along (exec 0x100) (Dictionary 0x100) oneEntry [.remove 1, .get 1] := by
  have hl : Along (exec 0x100) (Legal 0x100) oneEntry [.remove 1, .get 1] :=
    ⟨trivial, fun _ _ => ⟨trivial, fun _ _ => trivial⟩⟩
  refine (dictionary_iff isDict_oneEntry hl).mpr ?_
  refine ⟨trivial, fun h' hexec => ⟨?_, fun _ _ => trivial⟩⟩
  obtain ⟨⟨e, h₁⟩, hrem, hret⟩ := of_bind_ok hexec
  obtain rfl := Except.ok.inj hret
  obtain ⟨hes, -⟩ | ⟨es', hes, -, rfl⟩ := mapRemove_ok isMap_oneEntry hrem
  · exact nomatch hes
  · rw [FirstKept, isDict_oneEntry.unlink.entries]
    exact fun e he => nomatch he

theorem mapGet_not_dictionary : IsDict oneEntry 0x100 [16] ∧ Along (exec 0x100) (Legal 0x100) oneEntry [.get 1] ∧
    ¬ Along (exec 0x100) (Dictionary 0x100) oneEntry [.get 1] :=
  ⟨isDict_oneEntry, ⟨trivial, fun _ _ => trivial⟩, fun h => not_dictionary_get_hit isDict_oneEntry h.1⟩

end XyOS.Map
