/-
The hyper-parameters a server reads are those the worker wrote.

The worker writes its map as a text: a number of entries, and then names and values with blanks
in between.  The server reads the number, and as many names and values.  Nothing marks where a
name ends but the blank, and nothing what is a name but its place, so this can only work for
words: names and values that are not empty and hold no blank.

With words it works, and for every map.  Each word is read back where it was written, because
reading stops at the blank in front of the next.  The names of a map are distinct, so that no
value is overwritten and the order in which the map was iterated, which the library leaves open,
does not matter.  The number in front is written and read in decimal.

Between the two the text is a push to the server.  Its length is sent as an `int`, and the
server takes as many characters as it says.
-/
import DeepInc.Proofs.Worker.KeyEncoding
import DeepInc.Server.Codecs
import DeepInc.Server.Handler

namespace DeepInc.Compressor

open Tokens

/-- The entries after the number. -/
def text (order : List (Σ _ : Str, Str)) : Str :=
  order.flatMap fun kwarg => 32 :: kwarg.1 ++ 32 :: kwarg.2

/-- Names and values that can be told apart. -/
def AreWords (order : List (Σ _ : Str, Str)) : Prop :=
  ∀ kwarg ∈ order, ascii.IsWord kwarg.1 ∧ ascii.IsWord kwarg.2

theorem space_eq : ascii.space 32 = true := rfl

theorem ends_cons (rest : Str) : ascii.Ends (32 :: rest) := by
  intro c hc
  obtain rfl := Option.some.inj hc
  exact space_eq

theorem ends_text (order : List (Σ _ : Str, Str)) : ascii.Ends (text order) := by
  cases order with
  | nil => simp [text, Charset.Ends]
  | cons kwarg order => exact ends_cons _

/-- The loop inserts the entries one after another. -/
theorem readKwargs_text {order : List (Σ _ : Str, Str)} (hwords : AreWords order)
    (kwargs : Finmap fun _ : Str => Str) :
    readKwargs order.length (.left (text order)) kwargs =
      order.foldl (fun kwargs kwarg => kwargs.insert kwarg.1 kwarg.2) kwargs := by
  induction order generalizing kwargs with
  | nil => rfl
  | cons kwarg order ih =>
      obtain ⟨hkey, hval⟩ := hwords kwarg List.mem_cons_self
      have htext : text (kwarg :: order) = 32 :: (kwarg.1 ++ 32 :: (kwarg.2 ++ text order)) := by
        simp [text]
      have hfirst := word_left space_eq hkey (ends_cons (kwarg.2 ++ text order))
      have hsecond := word_left space_eq hval (ends_text order)
      rw [List.length_cons, htext, readKwargs_succ, hfirst, hsecond, List.foldl_cons]
      exact ih (fun kwarg h => hwords kwarg (List.mem_cons_of_mem _ h)) _

/-- Entries of distinct names are all there after they have been inserted. -/
theorem entries_foldl_insert {order : List (Σ _ : Str, Str)} (kwargs : Finmap fun _ : Str => Str)
    (hnodup : order.NodupKeys) (hfresh : ∀ kwarg ∈ order, kwarg.1 ∉ kwargs) :
    (order.foldl (fun kwargs kwarg => kwargs.insert kwarg.1 kwarg.2) kwargs).entries =
      order + kwargs.entries := by
  induction order generalizing kwargs with
  | nil => simp
  | cons kwarg order ih =>
      obtain ⟨hnot, hnodup⟩ := List.nodupKeys_cons.mp hnodup
      have hne : ∀ kwarg' ∈ order, kwarg'.1 ∉ kwargs.insert kwarg.1 kwarg.2 := by
        intro kwarg' hmem hin
        rcases Finmap.mem_insert.mp hin with heq | hin
        · exact hnot (heq ▸ List.mem_keys_of_mem hmem)
        · exact hfresh kwarg' (List.mem_cons_of_mem _ hmem) hin
      rw [List.foldl_cons, ih _ hnodup hne,
        Finmap.entries_insert_of_notMem (hfresh kwarg List.mem_cons_self), Multiset.add_cons,
        ← Multiset.cons_coe, Multiset.cons_add]

/-! ### The round trip

The loop of `Deserialize` is followed entry by entry.  What it has inserted before is an
accumulator, and the entries that are still to come have names that are not in it.
-/

variable {kwargs : KwargsMap} {order : List (Σ _ : Str, Str)}

theorem KwargsMap.IteratesAs.nodupKeys (h : kwargs.IteratesAs order) : order.NodupKeys :=
  Multiset.coe_nodupKeys.mp (h ▸ kwargs.map.nodupKeys)

/-- As many entries as the map has names. -/
theorem KwargsMap.IteratesAs.length_lt (h : kwargs.IteratesAs order) : order.length < 2 ^ 64 := by
  have hcard : kwargs.map.keys.card = order.length := by
    have hkeys : kwargs.map.keys.card = Multiset.card kwargs.map.entries :=
      Multiset.card_map Sigma.fst kwargs.map.entries
    rw [hkeys, h, Multiset.coe_card]
  rw [← hcard]
  exact kwargs.size_lt

theorem KwargsMap.ext_map {kwargs' : KwargsMap} (h : kwargs.map = kwargs'.map) : kwargs = kwargs' := by
  cases kwargs
  cases kwargs'
  cases h
  rfl

/-- What is written is read back. -/
theorem deserialize_serialize (horder : kwargs.IteratesAs order) (hwords : AreWords order) :
    deserialize (serialize order) = kwargs := by
  have hsize : (Stream.left (serialize order)).unsigned ascii 64 =
      (order.length, .left (text order)) :=
    unsigned_left horder.length_lt (ends_text order)
  refine KwargsMap.ext_map (Finmap.ext ?_)
  show (deserializeMap (serialize order)).entries = _
  unfold deserializeMap
  rw [hsize]
  dsimp only
  rw [readKwargs_text hwords, entries_foldl_insert ∅ horder.nodupKeys fun _ _ => Finmap.notMem_empty,
    horder]
  exact Multiset.add_zero _

/-! ### From the worker to the server -/

/-- A push carries a text, with the length `EncodeDefaultKey` notes for it. -/
structure Carries (data : Server.KVPairs UInt8) (content : Str) : Prop where
  vals : ∀ i (h : i < content.length), data.vals i = content.get ⟨i, h⟩
  lens : data.lens = [Worker.toUInt64 (Worker.toInt32 content.length)]

/-- The characters a server takes out of a push. -/
theorem Carries.received {data : Server.KVPairs UInt8} {content : Str} (h : Carries data content) :
    (List.range content.length).map data.vals = content := by
  refine List.ext_getElem (by simp) fun i hi _ => ?_
  rw [List.length_map, List.length_range] at hi
  rw [List.getElem_map, List.getElem_range, h.vals i hi]
  rfl

/--
**The server makes the compressor from the hyper-parameters of the worker.**  They are read as they
were written, in whatever order that was, and as long as their length fits the `int` it is sent in
the whole text is received.
-/
theorem hyperparameters_arrive (horder : kwargs.IteratesAs order) (hwords : AreWords order) :
    deserialize (serialize order) = kwargs ∧
      ∀ (κ : Type) (codec : Server.Codec UInt8 κ)
        (registry : KwargsMap → ℕ → DataType → Option (Server.Compressor UInt8 κ))
        (cfg : Server.Config) (s : Server.State UInt8 κ) (key : Server.Key) (req : Server.KVMeta)
        (data : Server.KVPairs UInt8), s.compressorMap key = none →
        Carries data (serialize order) → (serialize order).length < 2 ^ 31 →
        s.registerCompressor cfg (codec.ofRegistry registry) key req data =
          match registry kwargs (align (s.store key).len (s.store key).dtype) (s.store key).dtype with
          | none => .error (.check .compressorFound)
          | some c => .ok ((s.setCompressor key c).collectInit cfg key req) := by
  have hread := deserialize_serialize horder hwords
  refine ⟨hread, fun κ codec registry cfg s key req data hnone hdata hlen => ?_⟩
  have hlen' : Worker.toUInt64 (Worker.toInt32 (serialize order).length) = (serialize order).length := by
    rw [Worker.toInt32_of_lt hlen]
    unfold Worker.toUInt64
    omega
  unfold Server.State.registerCompressor
  rw [hnone, hdata.lens, hlen']
  simp only [Server.Codec.ofRegistry, hdata.received, hread]
  cases registry kwargs (align (s.store key).len (s.store key).dtype) (s.store key).dtype with
  | none => rfl
  | some c => rfl

/-- Two hyper-parameters, `k` and `type`, and what looks like their number. -/
theorem hyperparameters_arrive_two :
    let order : List (Σ _ : Str, Str) := [⟨[107], [50]⟩, ⟨[116, 121, 112, 101], [49, 48]⟩]
    deserialize (serialize order) = ⟨order.toFinmap, by decide⟩ :=
  (hyperparameters_arrive (by unfold KwargsMap.IteratesAs; decide)
    (by simp [AreWords, Charset.IsWord]; decide)).1

end DeepInc.Compressor
