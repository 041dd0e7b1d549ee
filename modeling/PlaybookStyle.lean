import PlaybookStyle.Main
import PlaybookStyle.Proofs.Report.Order
import PlaybookStyle.Proofs.Report.Sorting
import PlaybookStyle.Proofs.Selection
import PlaybookStyle.Proofs.Outline.Reading
import PlaybookStyle.Proofs.Outline.Placement
import PlaybookStyle.Proofs.Playbook.Places
import PlaybookStyle.Proofs.Rule.Places
import PlaybookStyle.Proofs.Outline.Courses
import PlaybookStyle.Proofs.Outline.Leaves
import PlaybookStyle.Proofs.Playbook.Agreement
import PlaybookStyle.Proofs.Report.Repeats
import PlaybookStyle.Proofs.Run
import PlaybookStyle.Proofs.Outline.Ordering
import PlaybookStyle.Proofs.Playbook.Inventory
import PlaybookStyle.Proofs.Playbook.Survey
import PlaybookStyle.Proofs.Playbook.Visits
import PlaybookStyle.Proofs.Outline.Lines
import PlaybookStyle.Proofs.Conforming.Layout
import PlaybookStyle.Proofs.Conforming.Reading
import PlaybookStyle.Proofs.Conforming.Build
import PlaybookStyle.Proofs.Rule.Silence
import PlaybookStyle.Proofs.Conforming.Findings
import PlaybookStyle.Proofs.Conforming.Report
import PlaybookStyle.Proofs.Outline.Nesting
import PlaybookStyle.Proofs.Safety
import PlaybookStyle.Proofs.Noise.Report
import PlaybookStyle.Proofs.Report.Appending
import PlaybookStyle.Proofs.Configuration.Stated
import PlaybookStyle.Proofs.Rule.Colon
import PlaybookStyle.Proofs.Playbook.Lists
import PlaybookStyle.Proofs.Outline.Lists
import PlaybookStyle.Proofs.Files.Discovery
import PlaybookStyle.Proofs.Rule.Separation
import PlaybookStyle.Proofs.Rule.Template
import PlaybookStyle.Proofs.Playbook.Scalars
import PlaybookStyle.Proofs.Rule.Quoting
import PlaybookStyle.Proofs.Yaml.Word
import PlaybookStyle.Proofs.Yaml.Integers
import PlaybookStyle.Proofs.Rule.Spellings
import PlaybookStyle.Proofs.Outline.Between
import PlaybookStyle.Proofs.Outline.Extents
import PlaybookStyle.Proofs.Outline.Brackets
import PlaybookStyle.Proofs.Outline.Collections
import PlaybookStyle.Proofs.Report.Merging
import PlaybookStyle.Proofs.Text.Order
import PlaybookStyle.Proofs.Outline.Owners
import PlaybookStyle.Proofs.Playbook.Tasks
import PlaybookStyle.Proofs.Rule.Order
import PlaybookStyle.Proofs.Outline.Rewriting
import PlaybookStyle.Proofs.Outline.Rewritten
import PlaybookStyle.Proofs.Outline.Marks
import PlaybookStyle.Proofs.Outline.Trailing
import PlaybookStyle.Proofs.Outline.Qualified
import PlaybookStyle.Proofs.Playbook.Matching
import PlaybookStyle.Proofs.Playbook.Renaming
import PlaybookStyle.Proofs.Outline.Edited
import PlaybookStyle.Proofs.Playbook.Calls
import PlaybookStyle.Proofs.Playbook.Qualified
import PlaybookStyle.Proofs.Outline.Differing
import PlaybookStyle.Proofs.Outline.Swapping
import PlaybookStyle.Proofs.Outline.Beginnings
import PlaybookStyle.Proofs.Outline.Swapped
import PlaybookStyle.Proofs.Outline.Quoting
import PlaybookStyle.Proofs.Outline.Editing
import PlaybookStyle.Proofs.Rule.Suggesting
import PlaybookStyle.Proofs.Rule.Leads
import PlaybookStyle.Proofs.Rule.Respelling
import PlaybookStyle.Proofs.Outline.Unbroken
import PlaybookStyle.Proofs.Playbook.Apart
import PlaybookStyle.Proofs.Playbook.Contexts
import PlaybookStyle.Proofs.Playbook.Words
import PlaybookStyle.Proofs.Report.Qualified
import PlaybookStyle.Proofs.Report.Unbroken
import PlaybookStyle.Proofs.Rule.Conditions
import PlaybookStyle.Proofs.Rule.Marks
import PlaybookStyle.Proofs.Rule.Identifier
