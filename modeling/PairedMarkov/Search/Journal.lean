import PairedMarkov.Search.Run

/-!
# Searching in memory

A journal is a surrounding of a search that is a value: it keeps what the search tells and writes,
and its clock shows a time that is known beforehand for each look.
-/

namespace PairedMarkov.Search

/-- What a search has told, and what it will find around it. -/
structure Journal (W : Type) where
  /-- What the clock shows, by the number of looks before. -/
  clock : Nat → Duration
  /-- How many records there is room for, if that is limited. -/
  room : Option Nat := none
  /-- How often the clock has been looked at. -/
  looks : Nat := 0
  /-- What has happened. -/
  events : Array (Event W) := #[]
  /-- The progress records. -/
  records : Array (Progress W) := #[]
  /-- The statistics of the searches that came to their end. -/
  summaries : Array Statistics := #[]

namespace Journal

variable {W : Type}

/-- Why a journal without room refuses a record. -/
def full : FileError := .other "sink is full"

/-- Adds a record if there is room for it. -/
def addRecord (j : Journal W) (record : Progress W) : Except FileError Unit × Journal W :=
  if j.room.all (j.records.size < ·) then
    (.ok (), { j with records := j.records.push record })
  else (.error full, j)

/-- The surroundings that write to a journal. -/
def surroundings : Surroundings (StateM (Journal W)) W where
  clock := fun j => (j.clock j.looks, { j with looks := j.looks + 1 })
  log event := fun j => ((), { j with events := j.events.push event })
  record record := fun j => j.addRecord record
  summarize statistics := fun j => ((), { j with summaries := j.summaries.push statistics })

/-- Carries out a search with a journal. -/
def runSearch {σ : Type} [Weight W] [Random.Source σ] (t : Setup W) (s : State W σ)
    (j : Journal W) : Except (Stop FileError) (Explanation W) × State W σ × Journal W :=
  let ((result, s), j) := (search surroundings t).run.run s |>.run j
  (result, s, j)

end Journal

end PairedMarkov.Search
