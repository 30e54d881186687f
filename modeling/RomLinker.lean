import RomLinker.Main
import RomLinker.Proofs.Numeral
import RomLinker.Proofs.Lines
import RomLinker.Proofs.Slots
import RomLinker.Proofs.Dispatch.Text
import RomLinker.Proofs.Dispatch.Reading
import RomLinker.Proofs.Dispatch.Calls
import RomLinker.Proofs.Resources
import RomLinker.Proofs.Settings.Sections
import RomLinker.Proofs.Settings.Draft
import RomLinker.Proofs.Settings.Exact
import RomLinker.Proofs.Path
import RomLinker.Proofs.Workspace
import RomLinker.Proofs.Disk.Change
import RomLinker.Proofs.Disk.Directories
import RomLinker.Proofs.Link.Ensures
import RomLinker.Proofs.Link.Quiet
import RomLinker.Proofs.Link.Kept
import RomLinker.Proofs.Extmod
import RomLinker.Proofs.Link.Steps
import RomLinker.Proofs.Link.NoTrace
import RomLinker.Proofs.Definitions
import RomLinker.Proofs.Dispatch.Symbols
import RomLinker.Proofs.ExtraBytes
import RomLinker.Proofs.Exports
import RomLinker.Proofs.Link.Insertions
import RomLinker.Proofs.Link.Closure
import RomLinker.Proofs.Listing.Local
import RomLinker.Proofs.Listing.Spelling
import RomLinker.Proofs.Marker
import RomLinker.Proofs.Link.Order
import RomLinker.Proofs.Link.Saved
import RomLinker.Proofs.Dispatch.Names
import RomLinker.Proofs.Dispatch.Interrupt
import RomLinker.Proofs.Link.Prints
import RomLinker.Proofs.Link.Cleans
import RomLinker.Proofs.Link.Pointers
import RomLinker.Proofs.Link.Causes
import RomLinker.Proofs.Link.History
import RomLinker.Proofs.Link.InPlace
import RomLinker.Proofs.LibraryNames
import RomLinker.Proofs.Link.Shelves
import RomLinker.Proofs.Disk.Normal
import RomLinker.Proofs.Settings.Respelling
import RomLinker.Proofs.Settings.Rejections
import RomLinker.Proofs.Settings.Reports
import RomLinker.Proofs.Image.Mirror
import RomLinker.Proofs.Link.Sizes
import RomLinker.Proofs.Image.Stamp
import RomLinker.Proofs.Disk.Resolution
import RomLinker.Proofs.ResourceNumbers
import RomLinker.Proofs.Placements
import RomLinker.Proofs.Dispatch.Tables
import RomLinker.Proofs.Routines
import RomLinker.Proofs.Link.Intact
import RomLinker.Proofs.Listing.Tiling
import RomLinker.Proofs.Directives
import RomLinker.Proofs.Image.Acceptance
import RomLinker.Proofs.Settings.Moving
import RomLinker.Proofs.Settings.Complete
import RomLinker.Proofs.LineEndings
import RomLinker.Proofs.Asar
import RomLinker.Proofs.Disk.Flat
import RomLinker.Proofs.Link.Scan
import RomLinker.Proofs.Utf8
import RomLinker.Proofs.SymbolFile.Locations
import RomLinker.Proofs.SymbolFile.Written
import RomLinker.Proofs.SymbolFile.Tolerant
import RomLinker.Proofs.RelativeNames
import RomLinker.Proofs.Link.AbsoluteNames
import RomLinker.Proofs.Link.Merge
import RomLinker.Proofs.Wrappers
import RomLinker.Proofs.Disk.Listing
