import CoffeeTable.Ecma.Text
import CoffeeTable.Ecma.Array
import CoffeeTable.Ecma.Number
import CoffeeTable.Ecma.Search
import CoffeeTable.Ecma.Decimal
import CoffeeTable.Ecma.Pattern
import CoffeeTable.Ecma.UpperCase
import CoffeeTable.Ecma.Uri
import CoffeeTable.Lines.Document
import CoffeeTable.Lines.Deletion
import CoffeeTable.Bounds.Clamp
import CoffeeTable.Bounds.Viewport
import CoffeeTable.Coding.PrefixFree
import CoffeeTable.Coding.Replacement
import CoffeeTable.Posix.Path
import CoffeeTable.Posix.Tree
import CoffeeTable.Transition.Run
import CoffeeTable.Transition.Ledger
import CoffeeTable.Transition.Simulation
import CoffeeTable.Transition.Channel
import CoffeeTable.Transition.Timers
import CoffeeTable.Editor.State
import CoffeeTable.Editor.Cursor
import CoffeeTable.Editor.Motion
import CoffeeTable.Editor.Edit
import CoffeeTable.Editor.EditLaws
import CoffeeTable.Editor.Keymap
import CoffeeTable.Editor.Handler
import CoffeeTable.Editor.Command
import CoffeeTable.Editor.RepeatCount
import CoffeeTable.Editor.Range
import CoffeeTable.Editor.Operator
import CoffeeTable.Editor.Escape
import CoffeeTable.Editor.Render
import CoffeeTable.Editor.Markup
import CoffeeTable.Editor.Inside
import CoffeeTable.Editor.Safety
import CoffeeTable.Editor.Reload
import CoffeeTable.Editor.Deletion
import CoffeeTable.Editor.Typing
import CoffeeTable.Editor.Keystrokes
import CoffeeTable.Editor.Corrections
import CoffeeTable.Editor.Counting
import CoffeeTable.Editor.Opening
import CoffeeTable.Editor.Spans
import CoffeeTable.Editor.Rewriting
import CoffeeTable.Editor.Shown
import CoffeeTable.Editor.Preservation
import CoffeeTable.Editor.Provenance
import CoffeeTable.Editor.Exec
import CoffeeTable.Editor.Vertical
import CoffeeTable.Server.Edit
import CoffeeTable.Keyboard.Keys
import CoffeeTable.Keyboard.GrabFocus
import CoffeeTable.Keyboard.NamedKeys
import CoffeeTable.Server.Confinement
import CoffeeTable.Server.Links
import CoffeeTable.Server.Requests
import CoffeeTable.Server.Folders
import CoffeeTable.Server.Callbacks
import CoffeeTable.Session.Saving
import CoffeeTable.Session.Browsing
import CoffeeTable.Session.Clients
import CoffeeTable.Session.Neighbours
import CoffeeTable.Underscore.Debounce
import CoffeeTable.Underscore.Escape
import CoffeeTable.Browser.Page
import CoffeeTable.Browser.Events
import CoffeeTable.Browser.Handlers
import CoffeeTable.Browser.Runs
import CoffeeTable.Browser.Scrolling
import CoffeeTable.Browser.ExecBox
