import Scety.Bytes

/-!
# `core/response.rs` and `http/`: the pages of the program

The text of a response, and the page that `error_pages::send` writes.  The table of status messages
is generated by the build, the template is a file of the repository, and the date is that of the
clock; they are the parameters `Site` of the pages.
-/

namespace Scety

/-- `s.replace(from, to)`, where `skip` characters of a match are still to be dropped. -/
def replaceFrom (old new : Str) : ℕ → Str → Str
  | _, [] => []
  | skip + 1, _ :: s => replaceFrom old new skip s
  | 0, c :: s =>
    if old.isPrefixOf (c :: s) then new ++ replaceFrom old new (old.length - 1) s
    else c :: replaceFrom old new 0 s

/-- `s.replace(from, to)`, where `from` is not empty. -/
def replace (s old new : Str) : Str := replaceFrom old new 0 s

section Replace

variable {c : Char} {old new : Str}

/-- Text without the first character of `from` stays. -/
theorem replace_append_of_notMem {s : Str} (h : c ∉ s) (t : Str) :
    replace (s ++ t) (c :: old) new = s ++ replace t (c :: old) new := by
  induction s with
  | nil => rfl
  | cons a s ih =>
    obtain ⟨hne, hs⟩ := not_or.mp (List.mem_cons.not.mp h)
    have hno : ¬ (c :: old).isPrefixOf (a :: (s ++ t)) = true := by
      rw [List.isPrefixOf_iff_prefix, List.cons_prefix_cons]
      exact fun hp => hne hp.1
    unfold replace
    rw [List.cons_append, replaceFrom, if_neg hno, List.cons_append]
    exact congrArg (a :: ·) (ih hs)

theorem replace_of_notMem {s : Str} (h : c ∉ s) : replace s (c :: old) new = s := by
  have happend := @replace_append_of_notMem c old new s h []
  rw [List.append_nil] at happend
  exact happend.trans (List.append_nil s)

theorem replaceFrom_skip (skip t : Str) :
    replaceFrom old new skip.length (skip ++ t) = replaceFrom old new 0 t := by
  induction skip with
  | nil => rfl
  | cons a skip ih => exact ih

/-- An occurrence at the front is replaced. -/
theorem replace_append_self (t : Str) :
    replace (c :: old ++ t) (c :: old) new = new ++ replace t (c :: old) new := by
  have hp : (c :: old).isPrefixOf (c :: (old ++ t)) = true :=
    List.isPrefixOf_iff_prefix.mpr (List.prefix_append (c :: old) t)
  unfold replace
  rw [List.cons_append, replaceFrom, if_pos hp, List.length_cons, Nat.add_sub_cancel,
    replaceFrom_skip]

end Replace

/-- `code.to_string()`. -/
def decimal (n : ℕ) : Str := (Nat.repr n).toList

def engineName : Str := "scety".toList

def engineVersion : Str := "0.1.1".toList

structure Site where
  statuses : HashMap ℕ Str
  template : Str
  /-- `Utc::now()` formatted, when a response with the code is made. -/
  date : ℕ → Str

/-- `get_status_message`. -/
def Site.statusMessage (site : Site) (code : ℕ) : Str :=
  (site.statuses.lookup code).getD "Something went wrong.".toList

structure HttpResponse where
  code : ℕ
  connection : Str
  exposeVersion : Bool
  headers : List (Str × Str)
  body : Option Str

namespace HttpResponse

def new (code : ℕ) (connection : Str) (exposeVersion : Bool) : HttpResponse :=
  ⟨code, connection, exposeVersion, [], none⟩

def withContent (self : HttpResponse) (contentType body : Str) : HttpResponse :=
  { self with
    headers := self.headers ++ [("Content-Type".toList, contentType),
      ("Content-Length".toList, decimal (bytes body).length)]
    body := some body }

def withHeaders (self : HttpResponse) (extra : List (Str × Str)) : HttpResponse :=
  { self with headers := self.headers ++ extra }

/-- `format!("{key}: {value}\r\n")`. -/
def line (key value : Str) : Str := key ++ ": ".toList ++ value ++ "\r\n".toList

def server (self : HttpResponse) : Str :=
  if self.exposeVersion then engineName ++ "/".toList ++ engineVersion else engineName

def toHttpString (self : HttpResponse) (site : Site) : Str :=
  "HTTP/1.1 ".toList ++ decimal self.code ++ " ".toList ++ site.statusMessage self.code ++
    "\r\n".toList ++ line "Server".toList self.server ++
    line "Connection".toList self.connection ++ line "Date".toList (site.date self.code) ++
    self.headers.flatMap (fun e => line e.1 e.2) ++ "\r\n".toList ++ self.body.getD []

end HttpResponse

/-- `generate_text_response`; `headers` are the global headers for responses, in the order of the
map. -/
def generateTextResponse (site : Site) (headers : List (Str × Str)) (code : ℕ) (connection : Str)
    (withContent : Bool) (contentType content : Option Str) (exposeVersion : Bool) : Str :=
  let response := (HttpResponse.new code connection exposeVersion).withHeaders headers
  let response :=
    if withContent then
      response.withContent (contentType.getD "text/plain; charset=utf-8".toList) (content.getD [])
    else response
  response.toHttpString site

/-- `generate_html`. -/
def generateHtml (site : Site) (code : ℕ) (message : Str) (exposeVersion : Bool) : Str :=
  let engineDisplay :=
    if exposeVersion then engineName ++ "/".toList ++ engineVersion else engineName
  replace (replace (replace site.template "\x7b\x7bCODE\x7d\x7d".toList (decimal code))
    "\x7b\x7bMESSAGE\x7d\x7d".toList message) "\x7b\x7bENGINE\x7d\x7d".toList engineDisplay

/-- What `error_pages::send` writes. -/
def errorPage (site : Site) (headers : List (Str × Str)) (code : ℕ) (exposeVersion : Bool) : Bytes :=
  let html := generateHtml site code (site.statusMessage code) exposeVersion
  bytes (generateTextResponse site headers code "close".toList true
    (some "text/html; charset=utf-8".toList) (some html) exposeVersion)

theorem bytes_append (s t : Str) : bytes (s ++ t) = bytes s ++ bytes t := List.flatMap_append

/-- Every page starts with the same bytes. -/
theorem errorPage_eq (site : Site) (headers : List (Str × Str)) (code : ℕ) (exposeVersion : Bool) :
    ∃ rest, errorPage site headers code exposeVersion = bytes "HTTP/1.1 ".toList ++ rest := by
  unfold errorPage generateTextResponse HttpResponse.toHttpString
  simp only [List.append_assoc, bytes_append]
  exact ⟨_, rfl⟩

end Scety
