import CppExperiments.Lib.Inverse
import CppExperiments.Url.Requests

/-!
# The keys that are issued

The two maps stay inverse to each other, and no key is issued twice, whatever is posted and deleted.
-/

namespace CppExperiments.Url

/-- A request, with the handler before and after it. -/
structure Exchange where
  before : RequestHandler
  buffer : Bytes
  after : RequestHandler
  response : Bytes

/-- The requests one after another, up to one at which an exception is thrown. -/
def exchanges (files : Files) (keyVec : Bytes) : RequestHandler → List Bytes → List Exchange
  | _, [] => []
  | r, buffer :: buffers =>
    match r.processRequest files keyVec buffer with
    | none => []
    | some (after, response) => ⟨r, buffer, after, response⟩ :: exchanges files keyVec after buffers

namespace Exchange

/-- The request has made an entry, with this key. -/
def Creates (e : Exchange) (url key : Bytes) :
    Prop := e.before.cache.lookup url = none ∧ e.after.cache.lookup url = some key

/-- The request is a post that is accepted. -/
def Posts (e : Exchange) (value : Bytes) : Prop :=
  ascii "POST" <+: e.buffer ∧
    ∃ pos, find (crlf ++ crlf) e.buffer = some pos ∧ validatePostBody (e.buffer.drop (pos + 4)) = some (200, value)

/-- A post is answered with the key that the address has behind it; one that it had before is kept, and nothing
changes. -/
def Answered (e : Exchange) (value : Bytes) : Prop :=
  ∃ key, e.after.cache.lookup (longURL value) = some key ∧
    (∀ key', e.before.cache.lookup (longURL value) = some key' → key = key' ∧ e.after = e.before) ∧
    e.response = (Response.json (if e.before.cache.lookup (longURL value) = none then 201 else 200)
      (e.after.shortened key value)).text

end Exchange

structure Sound (es : List Exchange) : Prop where
  inverse : ∀ e ∈ es, Inverse e.before.cache e.before.revCache ∧ Inverse e.after.cache e.after.revCache
  issued : es.Pairwise fun e e' => ∀ url url' key key', e.Creates url key → e'.Creates url' key' → key ≠ key'
  answered : ∀ e ∈ es, ∀ value, e.Posts value → e.Answered value

/-- The key of the `j`-th entry. -/
def keyAt (keyVec : Bytes) (Counter j : Nat) : Bytes := encryptSizeT ((Counter + j) % 2 ^ 64) keyVec

namespace RequestHandler

/-- The state when `m` entries have been made. -/
structure Inv (keyVec : Bytes) (Counter m : Nat) (r : RequestHandler) : Prop where
  counter : r.Counter = (Counter + m) % 2 ^ 64
  inverse : Inverse r.cache r.revCache
  live : ∀ url key, r.cache.lookup url = some key → ∃ j < m, key = keyAt keyVec Counter j

end RequestHandler

variable {files : Files} {keyVec buffer response value url key : Bytes} {buffers : List Bytes} {Counter m j k : Nat}
  {r r' : RequestHandler}

lemma keyAt_inj (hkey : keyVec.length = 8) (hj : j < 2 ^ 64) (hk : k < 2 ^ 64)
    (h : keyAt keyVec Counter j = keyAt keyVec Counter k) : j = k := by
  have hmod := encryptSizeT_inj hkey (Nat.mod_lt _ (by decide)) (Nat.mod_lt _ (by decide)) h
  omega

namespace RequestHandler

lemma shortenURL_of_live (h : r.cache.lookup url = some key) : r.shortenURL keyVec url = (r, key) := by
  rw [shortenURL, h, if_neg (Option.some_ne_none key), h, Option.getD_some]

lemma shortenURL_of_new (h : r.cache.lookup url = none) : r.shortenURL keyVec url =
    ({ r with
      Counter := (r.Counter + 1) % 2 ^ 64
      revCache := r.revCache.insert (encryptSizeT r.Counter keyVec) url
      cache := r.cache.insert url (encryptSizeT r.Counter keyVec) }, encryptSizeT r.Counter keyVec) := by
  rw [shortenURL, h, if_pos rfl]
  dsimp only
  rw [AList.lookup_insert, Option.getD_some]

lemma handlePost_of_accepted (h : validatePostBody buffer = some (200, value)) : r.handlePost keyVec buffer =
    some ((r.shortenURL keyVec (longURL value)).1, .json (if r.cache.lookup (longURL value) = none then 201 else 200)
      ((r.shortenURL keyVec (longURL value)).1.shortened (r.shortenURL keyVec (longURL value)).2 value)) := by
  rw [handlePost, h]
  rfl

lemma handlePost_cases {reply : Response} (h : r.handlePost keyVec buffer = some (r', reply)) :
    r' = r ∨ ∃ url, r' = (r.shortenURL keyVec url).1 := by
  rw [handlePost] at h
  obtain ⟨⟨responseCode, value⟩, -, h⟩ := Option.bind_eq_some_iff.1 h
  dsimp only at h
  split at h
  · exact .inr ⟨longURL value, (Prod.mk.inj (Option.some.inj h)).1.symm⟩
  · exact .inl (Prod.mk.inj (Option.some.inj h)).1.symm

lemma handleDelete_cases (r : RequestHandler) (buffer : Bytes) : (r.handleDelete buffer).1 = r ∨
    ∃ url key, r.revCache.lookup key = some url ∧
      (r.handleDelete buffer).1 = { r with cache := r.cache.erase url, revCache := r.revCache.erase key } := by
  rw [handleDelete]
  split
  · exact .inl rfl
  · split
    · exact .inr ⟨_, _, ‹_›, rfl⟩
    · exact .inl rfl

/-- What a request does to the handler. -/
lemma processRequest_cases (h : r.processRequest files keyVec buffer = some (r', response)) :
    r' = r ∨ (∃ url, r' = (r.shortenURL keyVec url).1) ∨
      ∃ url key, r.revCache.lookup key = some url ∧
        r' = { r with cache := r.cache.erase url, revCache := r.revCache.erase key } := by
  rw [processRequest] at h
  split at h
  · exact .inl (Prod.mk.inj (Option.some.inj h)).1.symm
  · split at h
    · exact .inl (Prod.mk.inj (Option.some.inj h)).1.symm
    · split at h
      · obtain ⟨⟨r₁, reply⟩, hpost, heq⟩ := Option.map_eq_some_iff.1 h
        obtain ⟨rfl, -⟩ := Prod.mk.inj heq
        exact (handlePost_cases hpost).imp_right .inl
      · split at h
        · obtain ⟨rfl, -⟩ := Prod.mk.inj (Option.some.inj h)
          exact (handleDelete_cases r buffer).imp_right .inr
        · exact .inl (Prod.mk.inj (Option.some.inj h)).1.symm

namespace Inv

lemma start (serverIP : Bytes) (serverPort : Int) (h : Counter < 2 ^ 64) :
    (RequestHandler.start serverIP serverPort Counter).Inv keyVec Counter 0 :=
  ⟨(Nat.mod_eq_of_lt h).symm, .empty, fun url key heq => by
    rw [RequestHandler.start, AList.lookup_empty] at heq
    cases heq⟩

lemma mono (h : r.Inv keyVec Counter m) (hcounter : r'.Counter = r.Counter) (hinverse : Inverse r'.cache r'.revCache)
    (hle : ∀ url key, r'.cache.lookup url = some key → r.cache.lookup url = some key) : r'.Inv keyVec Counter m :=
  ⟨hcounter.trans h.counter, hinverse, fun url key heq => h.live url key (hle url key heq)⟩

/-- The key of a new entry is not in use. -/
lemma fresh (h : r.Inv keyVec Counter m) (hkey : keyVec.length = 8) (hm : m < 2 ^ 64) :
    r.revCache.lookup (encryptSizeT r.Counter keyVec) = none := by
  refine h.inverse.lookup_eq_none fun url heq => ?_
  obtain ⟨j, hj, heq⟩ := h.live url _ heq
  rw [h.counter] at heq
  exact absurd (keyAt_inj hkey hm (hj.trans hm) heq) (Nat.ne_of_gt hj)

lemma create (h : r.Inv keyVec Counter m) (hkey : keyVec.length = 8) (hm : m < 2 ^ 64)
    (hurl : r.cache.lookup url = none) :
    (r.shortenURL keyVec url).1.Inv keyVec Counter (m + 1) := by
  rw [shortenURL_of_new hurl]
  refine ⟨?_, h.inverse.insert hurl (h.fresh hkey hm), fun url' key' heq => ?_⟩
  · dsimp only
    rw [h.counter]
    omega
  · dsimp only at heq
    by_cases hne : url' = url
    · rw [hne, AList.lookup_insert, h.counter] at heq
      exact ⟨m, Nat.lt_succ_self m, (Option.some.inj heq).symm⟩
    · rw [AList.lookup_insert_ne hne] at heq
      obtain ⟨j, hj, heq⟩ := h.live url' key' heq
      exact ⟨j, hj.trans (Nat.lt_succ_self m), heq⟩

/-- A request makes no entry, or one whose key is the next. -/
lemma step (h : r.Inv keyVec Counter m) (hkey : keyVec.length = 8) (hm : m < 2 ^ 64)
    (hstep : r.processRequest files keyVec buffer = some (r', response)) : ∃ m', m ≤ m' ∧ m' ≤ m + 1 ∧
      r'.Inv keyVec Counter m' ∧
      ∀ url key, r.cache.lookup url = none → r'.cache.lookup url = some key → m' = m + 1 ∧
        key = keyAt keyVec Counter m := by
  rcases processRequest_cases hstep with rfl | ⟨url, rfl⟩ | ⟨url, key, hlookup, rfl⟩
  · refine ⟨m, le_rfl, Nat.le_succ m, h, fun url key hnone hsome => ?_⟩
    rw [hnone] at hsome
    cases hsome
  · cases hurl : r.cache.lookup url with
    | some key =>
      rw [shortenURL_of_live hurl]
      refine ⟨m, le_rfl, Nat.le_succ m, h, fun url key hnone hsome => ?_⟩
      rw [hnone] at hsome
      cases hsome
    | none =>
      refine ⟨m + 1, Nat.le_succ m, le_rfl, h.create hkey hm hurl, fun url' key' hnone hsome => ⟨rfl, ?_⟩⟩
      rw [shortenURL_of_new hurl] at hsome
      dsimp only at hsome
      by_cases hne : url' = url
      · rw [hne, AList.lookup_insert, h.counter] at hsome
        exact (Option.some.inj hsome).symm
      · rw [AList.lookup_insert_ne hne, hnone] at hsome
        cases hsome
  · have herase : ∀ url' key', (r.cache.erase url).lookup url' = some key' → r.cache.lookup url' = some key' := by
      intro url' key' heq
      by_cases hne : url' = url
      · rw [hne, AList.lookup_erase] at heq
        cases heq
      · rwa [AList.lookup_erase_ne hne] at heq
    refine ⟨m, le_rfl, Nat.le_succ m, h.mono rfl (h.inverse.erase hlookup) herase, fun url' key' hnone hsome => ?_⟩
    rw [herase url' key' hsome] at hnone
    cases hnone

end Inv

end RequestHandler

/-- A post that is accepted has its answer. -/
lemma answered_of_step (hstep : r.processRequest files keyVec buffer = some (r', response)) :
    Exchange.Posts ⟨r, buffer, r', response⟩ value → Exchange.Answered ⟨r, buffer, r', response⟩ value := by
  rintro ⟨hpost, pos, hpos, hbody⟩
  dsimp only at hpost hpos hbody
  have hget : ¬ ascii "GET" <+: buffer := fun hget => by
    obtain ⟨rest, rfl⟩ := hpost
    exact absurd (List.cons_prefix_cons.1 hget).1 (by decide)
  rw [RequestHandler.processRequest, hpos] at hstep
  dsimp only at hstep
  rw [if_neg hget, if_pos hpost, RequestHandler.handlePost_of_accepted hbody, Option.map_some] at hstep
  obtain ⟨rfl, rfl⟩ := Prod.mk.inj (Option.some.inj hstep)
  cases hurl : r.cache.lookup (longURL value) with
  | some key =>
    rw [RequestHandler.shortenURL_of_live hurl]
    refine ⟨key, hurl, fun key' heq => ⟨Option.some.inj (hurl.symm.trans heq), rfl⟩, ?_⟩
    dsimp only
    rw [hurl]
  | none =>
    rw [RequestHandler.shortenURL_of_new hurl]
    refine ⟨encryptSizeT r.Counter keyVec, AList.lookup_insert _, fun key' heq => ?_, ?_⟩
    · rw [hurl] at heq
      cases heq
    · dsimp only
      rw [hurl]

/-- Everything about the requests from a state on, and the keys that they issue. -/
lemma sound_of_inv (h : r.Inv keyVec Counter m) (hkey : keyVec.length = 8) (hm : m + buffers.length ≤ 2 ^ 64) :
    Sound (exchanges files keyVec r buffers) ∧ ∀ e ∈ exchanges files keyVec r buffers, ∀ url key, e.Creates url key →
      ∃ j, m ≤ j ∧ j < 2 ^ 64 ∧ key = keyAt keyVec Counter j := by
  induction buffers generalizing r m with
  | nil => exact ⟨⟨fun e he => (nomatch he), .nil, fun e he => (nomatch he)⟩, fun e he => (nomatch he)⟩
  | cons buffer buffers ih =>
    rw [List.length_cons] at hm
    rw [exchanges]
    cases hstep : r.processRequest files keyVec buffer with
    | none => exact ⟨⟨fun e he => (nomatch he), .nil, fun e he => (nomatch he)⟩, fun e he => (nomatch he)⟩
    | some p =>
      obtain ⟨r', response⟩ := p
      obtain ⟨m', hle, hle', hinv, hnew⟩ := h.step hkey (by omega) hstep
      obtain ⟨hsound, hkeys⟩ := ih hinv (by omega)
      refine ⟨⟨List.forall_mem_cons.2 ⟨⟨h.inverse, hinv.inverse⟩, hsound.inverse⟩, .cons ?_ hsound.issued,
        List.forall_mem_cons.2 ⟨fun value => answered_of_step hstep, hsound.answered⟩⟩, List.forall_mem_cons.2 ⟨?_, ?_⟩⟩
      · intro e he url url' key key' hcreates hcreates'
        obtain ⟨hm', rfl⟩ := hnew url key hcreates.1 hcreates.2
        obtain ⟨j, hj, hj', rfl⟩ := hkeys e he url' key' hcreates'
        exact fun heq => absurd (keyAt_inj hkey (by omega) hj' heq) (by omega)
      · exact fun url key hcreates => ⟨m, le_rfl, by omega, (hnew url key hcreates.1 hcreates.2).2⟩
      · intro e he url key hcreates
        obtain ⟨j, hj, hj', heq⟩ := hkeys e he url key hcreates
        exact ⟨j, hle.trans hj, hj', heq⟩

/-- Any requests to a handler with empty maps, fewer of them than there are counters. -/
theorem exchanges_sound (files : Files) (serverIP : Bytes) (serverPort : Int) (hkey : keyVec.length = 8)
    (hCounter : Counter < 2 ^ 64) (hbuffers : buffers.length < 2 ^ 64) :
    Sound (exchanges files keyVec (.start serverIP serverPort Counter) buffers) :=
  (sound_of_inv (.start serverIP serverPort hCounter) hkey (by omega)).1

theorem exchanges_sound_twice : Sound (exchanges ⟨fun _ => false, fun _ => []⟩ [1, 2, 3, 4, 5, 6, 7, 8]
    (.start (ascii "127.0.0.1") 8080 0) [
      ascii "POST / HTTP/1.1\r\n\r\n\x7b\"url\": \"example.com\"\x7d", ascii "DELETE /5McJmDgrvc HTTP/1.1\r\n\r\n",
      ascii "POST / HTTP/1.1\r\n\r\n\x7b\"url\": \"example.com\"\x7d"]) :=
  exchanges_sound _ _ _ rfl (by decide) (by decide)

end CppExperiments.Url
