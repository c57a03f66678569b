import Fs5600.Appending
import Fs5600.Attributes
import Fs5600.Deletion
import Fs5600.DescriptionText
import Fs5600.Durability
import Fs5600.Faults
import Fs5600.GeneratedService
import Fs5600.ImageTool
import Fs5600.Issued
import Fs5600.Readback
import Fs5600.Reference
import Fs5600.Renaming
import Fs5600.Searches
import Fs5600.Together
import Fs5600.Truncation
import Fs5600.Twin
